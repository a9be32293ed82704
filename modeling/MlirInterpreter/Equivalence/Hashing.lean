import MlirInterpreter.Dialects.Defaults
import MlirInterpreter.Equivalence.Operands
import Mathlib.Data.UInt
import Mathlib.Algebra.BigOperators.Group.List.Basic

/-!
# Hashes of equivalent operations

`computeHash` hashes all operands with one callback, `isEquivalentTo` compares some of them with
another one.  Operands from outside that match hash alike if the callbacks agree.  Operands defined
inside the compared operations, such as an operation's own results in a graph region, match because
they correspond, whatever their hashes are: equivalent operations hash alike exactly if these
operands do (`computeHash_eq_iff`, `computeHash_selfProgram`).

"Exactly" is meant for all functions `hash_combine` may be.  That the hashes of the operands can be
told apart by one of them is `foldl_separates`.
-/

set_option autoImplicit false

namespace MlirInterpreter

/-! ## Folds that tell lists apart -/

/-- Counts up to `i`, then remembers whether the element number `i` was `x`. -/
def spot (i : ℕ) (x state y : HashCode) : HashCode :=
  if state.toNat < i then state + 1
  else if state.toNat = i then if y = x then 0x8000000000000000 else 0x8000000000000001
  else state

theorem foldl_spot_before {i : ℕ} (hi : i < 2 ^ 63) (x : HashCode) (ys : List HashCode) {k : ℕ}
    (hk : k + ys.length ≤ i) : ys.foldl (spot i x) (.ofNat k) = .ofNat (k + ys.length) := by
  induction ys generalizing k with
  | nil => rfl
  | cons y ys ih =>
    rw [List.length_cons] at hk
    have hlt : (UInt64.ofNat k).toNat = k := by
      rw [UInt64.toNat_ofNat']
      exact Nat.mod_eq_of_lt (by omega)
    have hstep : spot i x (.ofNat k) y = .ofNat (k + 1) := by
      rw [spot, hlt, if_pos (by omega), UInt64.ofNat_add]
      rfl
    rw [List.foldl_cons, hstep, ih (by omega), List.length_cons]
    congr 1
    omega

theorem foldl_spot_after {i : ℕ} (hi : i < 2 ^ 63) (x : HashCode) (ys : List HashCode)
    {state : HashCode} (hstate : 2 ^ 63 ≤ state.toNat) : ys.foldl (spot i x) state = state := by
  induction ys with
  | nil => rfl
  | cons y ys ih =>
    rw [List.foldl_cons, spot, if_neg (by omega), if_neg (by omega), ih]

/-- Two lists that all folds take for the same are the same. -/
theorem foldl_separates {xs ys : List HashCode} (hlen : xs.length = ys.length)
    (hshort : xs.length < 2 ^ 63)
    (h : ∀ f : HashCode → HashCode → HashCode, xs.foldl f 0 = ys.foldl f 0) : xs = ys := by
  refine List.ext_getElem hlen fun i hx hy => ?_
  have hi : i < 2 ^ 63 := by omega
  -- What the fold remembers of the element number `i`.
  have remembers : ∀ (zs : List HashCode) (hz : i < zs.length),
      zs.foldl (spot i xs[i]) 0 = if zs[i] = xs[i] then 0x8000000000000000 else
        0x8000000000000001 := by
    intro zs hz
    have hsplit : zs = zs.take i ++ zs[i] :: zs.drop (i + 1) := by
      rw [List.cons_getElem_drop_succ, List.take_append_drop]
    have hbefore : (zs.take i).foldl (spot i xs[i]) (.ofNat 0) = .ofNat i := by
      have hlength : (zs.take i).length = i := by simp; omega
      rw [foldl_spot_before hi xs[i] _ (by omega), hlength, zero_add]
    have hcount : (UInt64.ofNat i).toNat = i := by
      rw [UInt64.toNat_ofNat']
      exact Nat.mod_eq_of_lt (by omega)
    conv_lhs => rw [hsplit]
    rw [List.foldl_append, List.foldl_cons, show (0 : HashCode) = .ofNat 0 from rfl, hbefore]
    rw [foldl_spot_after hi]
    · rw [spot, hcount, if_neg (by omega), if_pos rfl]
    · rw [spot, hcount, if_neg (by omega), if_pos rfl]
      split <;> decide
  have hsame := h (spot i xs[i])
  rw [remembers xs hx, remembers ys hy, if_pos rfl] at hsame
  by_contra hne
  rw [if_neg (Ne.symm hne)] at hsame
  exact absurd hsame (by decide)

/-! ## What is hashed -/

variable {Op Blk : Type} {P : Program Op Blk}
  {hashOperand : Value Op Blk → EvalResult HashCode}

/-- The hash `hashOperand` completes with. -/
def operandHash (hashOperand : Value Op Blk → EvalResult HashCode) (v : Value Op Blk) : HashCode :=
  match hashOperand v with
  | .completed hash => hash
  | .signal _ => 0

theorem operandHash_eq {v : Value Op Blk} {hash : HashCode} (h : hashOperand v = .completed hash) :
    operandHash hashOperand v = hash := by
  rw [operandHash, h]

/-- The hash of an operation whose operands have been hashed. -/
def headHash (P : Program Op Blk) (H : HashFns Op Blk) (op : Op) : HashCode :=
  H.ofHead (P.kind op).name (P.attrs op) (P.resultTypes op) (P.kind op).properties

/-- The loop over the operands completes if and only if the callback does on all of them. -/
theorem hashOperands_spec (hashOperand : Value Op Blk → EvalResult HashCode)
    (H : HashFns Op Blk) (commutative : Bool) (vs : List (Value Op Blk))
    (hash sum : HashCode) :
    (∃ v ∈ vs, ∃ st, hashOperand v = .signal st ∧
      hashOperands (M := Id) H hashOperand commutative vs hash sum = .signal st) ∨
    ((∀ v ∈ vs, hashOperand v = .completed (operandHash hashOperand v)) ∧
      hashOperands (M := Id) H hashOperand commutative vs hash sum = .completed
        (if commutative then (hash, sum + (vs.map (operandHash hashOperand)).sum)
        else ((vs.map (operandHash hashOperand)).foldl H.combine hash, sum))) := by
  induction vs generalizing hash sum with
  | nil =>
    refine Or.inr ⟨by simp, ?_⟩
    cases commutative <;> simp [hashOperands] <;> rfl
  | cons v vs ih =>
    cases hv : hashOperand v with
    | signal st =>
      refine Or.inl ⟨v, by simp, st, hv, ?_⟩
      rw [hashOperands]
      simp only [hv]
      rfl
    | completed hash' =>
      have hstep : hashOperands (M := Id) H hashOperand commutative (v :: vs) hash sum =
          if commutative then hashOperands (M := Id) H hashOperand commutative vs hash (sum + hash')
          else hashOperands (M := Id) H hashOperand commutative vs (H.combine hash hash') sum := by
        rw [hashOperands]
        simp only [hv]
        rfl
      have hcode := operandHash_eq hv
      cases commutative with
      | true =>
        rw [hstep, if_pos rfl]
        rcases ih hash (sum + hash') with ⟨w, hw, st, hst, h⟩ | ⟨hall, h⟩
        · exact Or.inl ⟨w, by simp [hw], st, hst, h⟩
        · refine Or.inr ⟨List.forall_mem_cons.mpr ⟨by rw [hcode, hv], hall⟩, ?_⟩
          rw [h, if_pos rfl, if_pos rfl, List.map_cons, List.sum_cons, hcode, add_assoc]
      | false =>
        rw [hstep, if_neg (by simp)]
        rcases ih (H.combine hash hash') sum with ⟨w, hw, st, hst, h⟩ | ⟨hall, h⟩
        · exact Or.inl ⟨w, by simp [hw], st, hst, h⟩
        · refine Or.inr ⟨List.forall_mem_cons.mpr ⟨by rw [hcode, hv], hall⟩, ?_⟩
          rw [h, if_neg (by simp), if_neg (by simp), List.map_cons, List.foldl_cons, hcode]

/-- What `computeHash` completes with. -/
theorem computeHash_eq {H₀ : HashFns Op Blk} {op : Op} {hash : HashCode}
    (h : computeHash (M := Id) P H₀ hashOperand op = .completed hash) :
    (∀ v ∈ P.operands op, hashOperand v = .completed (operandHash hashOperand v)) ∧
      ∀ H : HashFns Op Blk, computeHash (M := Id) P H hashOperand op = .completed
        (if (P.kind op).name.isCommutative then
          H.combine (headHash P H op) ((P.operands op).map (operandHash hashOperand)).sum
        else ((P.operands op).map (operandHash hashOperand)).foldl H.combine
          (headHash P H op)) := by
  have hall : ∀ v ∈ P.operands op, hashOperand v = .completed (operandHash hashOperand v) := by
    rcases hashOperands_spec hashOperand H₀ (P.kind op).name.isCommutative
      (P.operands op) (headHash P H₀ op) 0 with ⟨v, -, st, -, hsignal⟩ | ⟨hall, -⟩
    · rw [headHash] at hsignal
      simp only [computeHash, hsignal] at h
      cases h
    · exact hall
  refine ⟨hall, fun H => ?_⟩
  rcases hashOperands_spec hashOperand H (P.kind op).name.isCommutative
    (P.operands op) (headHash P H op) 0 with ⟨v, hv, st, hst, -⟩ | ⟨-, hcompleted⟩
  · rw [hall v hv] at hst
    simp at hst
  · have hall' := hcompleted
    rw [headHash] at hall' ⊢
    rw [computeHash]
    simp only [hall']
    split
    · simp only [zero_add]
      rfl
    · rfl

/-! ## Equivalent operations -/

open Classical in
/-- The operands that are defined inside the operation, such as its own results. -/
noncomputable def innerOperands (P : Program Op Blk) (op : Op) : List (Value Op Blk) :=
  (P.operands op).filter fun v => P.DefinedIn op v

/-- Operands defined inside the operations hash like their counterparts, in total if their order
does not matter. -/
def InnerOperandsHashAlike (P : Program Op Blk) (hashOperand : Value Op Blk → EvalResult HashCode)
    (lhs rhs : Op) : Prop :=
  if (P.kind lhs).name.isCommutative then
    ((innerOperands P lhs).map (operandHash hashOperand)).sum =
      ((innerOperands P rhs).map (operandHash hashOperand)).sum
  else ∀ (i : ℕ) x y, (P.operands lhs)[i]? = some x → (P.operands rhs)[i]? = some y →
    P.DefinedIn lhs x → operandHash hashOperand x = operandHash hashOperand y

section Equivalent

variable {lhs rhs : Op} {R : Value Op Blk → Value Op Blk → Prop} {x y : Value Op Blk}

theorem Matches.definedIn_iff (h : Matches P lhs rhs R x y) :
    P.DefinedIn lhs x ↔ P.DefinedIn rhs y := by
  rcases h with h | ⟨hx, hy, -⟩
  · exact ⟨fun _ => h.right, fun _ => h.left⟩
  · exact ⟨fun h => absurd h hx, fun h => absurd h hy⟩

/-- Values from outside that match hash alike. -/
theorem Matches.hash_eq (hR : ∀ x y, R x y → hashOperand x = hashOperand y)
    (h : Matches P lhs rhs R x y) (hx : ¬ P.DefinedIn lhs x) :
    operandHash hashOperand x = operandHash hashOperand y := by
  rcases h with h | ⟨-, -, rfl | ⟨-, h⟩⟩
  · exact absurd h.left hx
  · rfl
  · rw [operandHash, operandHash, hR x y h]

open Classical in
/-- What matching operands contribute to a sum differs by what the inner ones contribute. -/
theorem sum_matches (hR : ∀ x y, R x y → hashOperand x = hashOperand y)
    {xs ys : List (Value Op Blk)} (h : List.Forall₂ (Matches P lhs rhs R) xs ys) :
    ∃ outer : HashCode,
      (xs.map (operandHash hashOperand)).sum =
        outer + ((xs.filter fun v => P.DefinedIn lhs v).map (operandHash hashOperand)).sum ∧
      (ys.map (operandHash hashOperand)).sum =
        outer + ((ys.filter fun v => P.DefinedIn rhs v).map (operandHash hashOperand)).sum := by
  induction h with
  | nil => exact ⟨0, by simp, by simp⟩
  | @cons x y xs ys hxy _ ih =>
    obtain ⟨outer, hxs, hys⟩ := ih
    rw [List.map_cons, List.sum_cons, List.map_cons, List.sum_cons, hxs, hys]
    by_cases hx : P.DefinedIn lhs x
    · have hy := hxy.definedIn_iff.mp hx
      refine ⟨outer, ?_, ?_⟩
      · rw [List.filter_cons_of_pos (by simpa using hx), List.map_cons, List.sum_cons,
          add_left_comm]
      · rw [List.filter_cons_of_pos (by simpa using hy), List.map_cons, List.sum_cons,
          add_left_comm]
    · have hy := fun hy => hx (hxy.definedIn_iff.mpr hy)
      refine ⟨operandHash hashOperand x + outer, ?_, ?_⟩
      · rw [List.filter_cons_of_neg (by simpa using hx), add_assoc]
      · rw [List.filter_cons_of_neg (by simpa using hy), hxy.hash_eq hR hx, add_assoc]

/-- The sums of the hashes of matching operands agree exactly if those of the inner ones do. -/
theorem sum_eq_iff (hR : ∀ x y, R x y → hashOperand x = hashOperand y)
    (hkind : (P.kind lhs).name.isCommutative = true)
    (h : OperandsMatch P (Matches P lhs rhs R) lhs rhs) :
    ((P.operands lhs).map (operandHash hashOperand)).sum =
        ((P.operands rhs).map (operandHash hashOperand)).sum ↔
      InnerOperandsHashAlike P hashOperand lhs rhs := by
  rw [OperandsMatch, if_pos hkind] at h
  obtain ⟨ys, hperm, hall⟩ := h
  obtain ⟨outer, hlhs, hrhs⟩ := sum_matches hR hall
  rw [InnerOperandsHashAlike, if_pos hkind, innerOperands, innerOperands,
    ← (hperm.map (operandHash hashOperand)).sum_eq, hlhs, hrhs, add_right_inj,
    ((hperm.filter _).map (operandHash hashOperand)).sum_eq]

/-- The hashes of matching operands agree exactly if those of the inner ones do. -/
theorem map_eq_iff (hR : ∀ x y, R x y → hashOperand x = hashOperand y)
    (hkind : (P.kind lhs).name.isCommutative = false)
    (h : OperandsMatch P (Matches P lhs rhs R) lhs rhs) :
    (P.operands lhs).map (operandHash hashOperand) =
        (P.operands rhs).map (operandHash hashOperand) ↔
      InnerOperandsHashAlike P hashOperand lhs rhs := by
  rw [OperandsMatch, hkind, if_neg (by simp)] at h
  rw [InnerOperandsHashAlike, hkind, if_neg (by simp)]
  constructor
  · intro hmap i x y hx hy _
    have hi := congrArg (fun hashes => hashes[i]?) hmap
    simpa [hx, hy] using hi
  · intro hinner
    refine List.ext_getElem (by simpa using h.length_eq) fun i hi hi' => ?_
    rw [List.length_map] at hi hi'
    rw [List.getElem_map, List.getElem_map]
    have hxy : Matches P lhs rhs R (P.operands lhs)[i] (P.operands rhs)[i] :=
      (List.forall₂_iff_get.mp h).2 i hi hi'
    by_cases hx : P.DefinedIn lhs (P.operands lhs)[i]
    · exact hinner i _ _ (List.getElem?_eq_getElem hi) (List.getElem?_eq_getElem hi') hx
    · exact hxy.hash_eq hR hx

end Equivalent

section Main

variable {check : Value Op Blk → Value Op Blk → EvalResult Bool} {lhs rhs : Op}

/-- What is claimed of a callback about which nothing is known. -/
def answered (check : Value Op Blk → Value Op Blk → EvalResult Bool) : Judging Op Blk Unit where
  Inv _ := True
  Rel _ _ := True
  Stops _ _ _ := True
  yes x y := check x y = .completed true
  no _ _ := True

theorem answered_kept (check : Value Op Blk → Value Op Blk → EvalResult Bool)
    (asks : Value Op Blk → Value Op Blk → Prop) :
    (answered check).Kept MonadLogic.plain check asks where
  refl _ _ := trivial
  trans _ _ _ _ _ := trivial
  inv _ _ _ := trivial
  stops _ _ _ _ _ _ := trivial
  check _ x y _ _ := by
    change (answered check).Ends () _ _ (check x y) ()
    cases h : check x y with
    | completed b =>
      cases b with
      | false => exact ⟨trivial, trivial⟩
      | true => exact ⟨trivial, h⟩
    | signal st => trivial

variable [DecidableEq Op] [DecidableEq Blk] [Fintype Op]

/-- Operations that match are equivalent. -/
theorem equivalent_of_isEquivalentTo (hP : P.WellFormed)
    (h : isEquivalentTo (M := Id) P check lhs rhs = .completed true) :
    lhs = rhs ∨ EquivalentUnder P (fun x y => check x y = .completed true) lhs rhs := by
  rw [isEquivalentTo] at h
  split at h
  · next heq => exact Or.inl heq
  · have hends : (answered check).Ends () _ _ (checkOperations (M := Id) P check lhs rhs) () :=
      wp_checkOperations (s := ()) hP (answered_kept check _) trivial
    rw [h] at hends
    exact Or.inr hends.2

/-- **When equivalent operations hash alike.**  Let the callbacks agree.  If two operations are
equivalent and both can be hashed, then their hashes agree, whatever function `hash_combine` is,
exactly if the operands defined inside of them, such as their own results in a graph region, hash
like their counterparts.  MLIR counts operands in 32 bits. -/
theorem computeHash_eq_iff (hP : P.WellFormed) {hashOperand : Value Op Blk → EvalResult HashCode}
    (hagree : ∀ x y, check x y = .completed true → hashOperand x = hashOperand y)
    (hequivalent : isEquivalentTo (M := Id) P check lhs rhs = .completed true)
    (hnum : (P.operands lhs).length < 2 ^ 32) {H₀ : HashFns Op Blk} {hash hash' : HashCode}
    (hlhs : computeHash (M := Id) P H₀ hashOperand lhs = .completed hash)
    (hrhs : computeHash (M := Id) P H₀ hashOperand rhs = .completed hash') :
    (∀ H : HashFns Op Blk, computeHash (M := Id) P H hashOperand lhs =
        computeHash (M := Id) P H hashOperand rhs) ↔
      InnerOperandsHashAlike P hashOperand lhs rhs := by
  rcases equivalent_of_isEquivalentTo hP hequivalent with rfl | ⟨hiso, hmatch⟩
  · refine ⟨fun _ => ?_, fun _ _ => rfl⟩
    rw [InnerOperandsHashAlike]
    split
    · rfl
    · intro i x y hx hy _
      rw [Option.some.inj (hx.symm.trans hy)]
  have htop := hmatch lhs rhs .root
  obtain ⟨halike, hattrs, -⟩ := hiso lhs rhs .root
  have hhead : ∀ H : HashFns Op Blk, headHash P H rhs = headHash P H lhs := fun H => by
    rw [headHash, headHash, halike.kind, halike.resultTypes, hattrs]
  have hvalue := (computeHash_eq hlhs).2
  have hvalue' := (computeHash_eq hrhs).2
  rw [← halike.kind] at hvalue'
  cases hkind : (P.kind lhs).name.isCommutative with
  | true =>
    rw [← sum_eq_iff hagree hkind htop]
    simp only [hvalue, hvalue', hkind, hhead, if_true]
    constructor
    · intro h
      -- A `hash_combine` that keeps the sum.
      exact EvalResult.completed.inj (h { H₀ with combine := fun _ sum => sum })
    · intro h H
      rw [h]
  | false =>
    rw [← map_eq_iff hagree hkind htop]
    simp only [hvalue, hvalue', hkind, hhead, Bool.false_eq_true, if_false]
    constructor
    · intro h
      refine foldl_separates (by simpa using halike.operands) ?_ fun f => ?_
      · rw [List.length_map]
        omega
      · exact EvalResult.completed.inj (h { H₀ with combine := f, ofHead := fun _ _ _ _ => 0 })
    · intro h H
      rw [h]

end Main

/-- Compared and hashed by identity, the two operations are equivalent, and hash differently. -/
theorem computeHash_selfProgram :
    (∀ x y : Value (Fin 3) (Fin 1), (EvalResult.completed (decide (x = y)) = .completed true) →
      EvalResult.completed (HashFns.numbered.ofValue x) =
        EvalResult.completed (HashFns.numbered.ofValue y)) ∧
    isEquivalentTo (M := Id) selfProgram (fun x y => EvalResult.completed (decide (x = y))) 0 1 =
      .completed true ∧
    computeHash (M := Id) selfProgram HashFns.numbered
      (fun x => EvalResult.completed (HashFns.numbered.ofValue x)) 0 = .completed 31 ∧
    computeHash (M := Id) selfProgram HashFns.numbered
      (fun x => EvalResult.completed (HashFns.numbered.ofValue x)) 1 = .completed 131 := by
  refine ⟨fun x y h => ?_, by rfl, by rfl, by rfl⟩
  rw [of_decide_eq_true (EvalResult.completed.inj h)]

theorem computeHash_eq_iff_selfProgram :
    (∀ H : HashFns (Fin 3) (Fin 1),
      computeHash (M := Id) selfProgram H (fun _ => EvalResult.completed 0) 0 =
        computeHash (M := Id) selfProgram H (fun _ => EvalResult.completed 0) 1) ↔
      InnerOperandsHashAlike selfProgram (fun _ => .completed 0) 0 1 :=
  computeHash_eq_iff selfProgram_wellFormed (fun _ _ _ => rfl)
    (by rfl : isEquivalentTo (M := Id) selfProgram (fun _ _ => EvalResult.completed false) 0 1 =
      .completed true) (by decide)
    (by rfl : computeHash (M := Id) selfProgram HashFns.numbered
      (fun _ => EvalResult.completed 0) 0 = .completed 31)
    (by rfl : computeHash (M := Id) selfProgram HashFns.numbered
      (fun _ => EvalResult.completed 0) 1 = .completed 31)

end MlirInterpreter
