import MlirInterpreter.Equivalence.Structure
import MlirInterpreter.Foundations.Prog
import MlirInterpreter.Foundations.Pairing

/-!
# The comparison of operands

The second and the third pass, in the logic of any monad.  A `Judging` says what is claimed of the
callback `checkEquivalent`: what a completed `true` and a completed `false` mean for the two values,
what a call does to the state, and what a signal leaves behind.  `wp_compareAll` says what follows
for the third pass, and `wp_isEquivalentTo` for the whole comparison: it ends with a signal of the
callback, or it decides `EquivalentUnder`.

Greedy pairing of commutative operands is right because matching is a zigzag relation whenever the
callback is symmetric and transitive (`Matches.zigzag`).
-/

set_option autoImplicit false

namespace MlirInterpreter

open Pairing

variable {Op Blk : Type} {P : Program Op Blk}

/-! ## What the third pass does -/

/-- What is claimed of a callback that compares values, and of code that calls it. -/
structure Judging (Op Blk S : Type) where
  /-- Holds between calls. -/
  Inv : S → Prop
  /-- What a completed call does. -/
  Rel : S → S → Prop
  /-- What a call that signals does. -/
  Stops : S → Signal → S → Prop
  /-- What a completed `true` says. -/
  yes : Value Op Blk → Value Op Blk → Prop
  /-- What a completed `false` says. -/
  no : Value Op Blk → Value Op Blk → Prop

variable {S : Type} (J : Judging Op Blk S)

/-- How a comparison ends that started in `s`. -/
def Judging.Ends (s : S) (yes no : Prop) : EvalResult Bool → S → Prop
  | .completed true, t => J.Rel s t ∧ yes
  | .completed false, t => J.Rel s t ∧ no
  | .signal st, t => J.Stops s st t

theorem Judging.Ends.mono {J : Judging Op Blk S} {s t : S} {yes yes' no no' : Prop}
    {r : EvalResult Bool} (h : J.Ends s yes no r t) (hyes : yes → yes') (hno : no → no') :
    J.Ends s yes' no' r t := by
  rcases r with (_ | _) | st
  · exact ⟨h.1, hno h.2⟩
  · exact ⟨h.1, hyes h.2⟩
  · exact h

/-- The callback keeps what is claimed of it, on the values the third pass may ask for. -/
structure Judging.Kept {M : Type → Type} [Monad M] (L : MonadLogic M S)
    (check : Value Op Blk → Value Op Blk → M (EvalResult Bool))
    (asks : Value Op Blk → Value Op Blk → Prop) : Prop where
  refl : ∀ s, J.Inv s → J.Rel s s
  trans : ∀ s t u, J.Rel s t → J.Rel t u → J.Rel s u
  inv : ∀ s t, J.Rel s t → J.Inv t
  stops : ∀ s t u st, J.Rel s t → J.Stops t st u → J.Stops s st u
  check : ∀ s x y, J.Inv s → asks x y → L.wp (check x y) s (J.Ends s (J.yes x y) (J.no x y))

/-- A later start. -/
theorem Judging.Ends.after {J : Judging Op Blk S} {M : Type → Type} [Monad M] {L : MonadLogic M S}
    {check : Value Op Blk → Value Op Blk → M (EvalResult Bool)}
    {asks : Value Op Blk → Value Op Blk → Prop} (hJ : J.Kept L check asks) {s t u : S}
    {yes no : Prop} {r : EvalResult Bool} (hst : J.Rel s t) (h : J.Ends t yes no r u) :
    J.Ends s yes no r u := by
  rcases r with (_ | _) | st
  · exact ⟨hJ.trans s t u hst h.1, h.2⟩
  · exact ⟨hJ.trans s t u hst h.1, h.2⟩
  · exact hJ.stops s t u st hst h

variable [DecidableEq Op] [DecidableEq Blk]

namespace Matching

variable (P) (m : Matching Op Blk)

/-- Two values may be passed to the callback. -/
def Asks (x y : Value Op Blk) : Prop := P.Valid x ∧ P.Valid y ∧ m.matchValues P x y = none

/-- Two values match, where `yes` is what the callback says. -/
def Agrees (yes : Value Op Blk → Value Op Blk → Prop) (x y : Value Op Blk) : Prop :=
  m.matchValues P x y = some true ∨ m.matchValues P x y = none ∧ yes x y

/-- Two values do not match, where `no` is what the callback says. -/
def Differs (no : Value Op Blk → Value Op Blk → Prop) (x y : Value Op Blk) : Prop :=
  m.matchValues P x y = some false ∨ m.matchValues P x y = none ∧ no x y

/-- What does not match is not a match: what the callback says is consistent. -/
def Consistent (J : Judging Op Blk S) : Prop :=
  ∀ x y, m.Differs P J.no x y → ¬ m.Agrees P J.yes x y

/-- The candidates of `compareCommutative` that are left. -/
def unused (rs : List (Value Op Blk × Bool)) : List (Value Op Blk) :=
  (rs.filter fun r => !r.2).map Prod.fst

end Matching

/-- The operands of two operations match, in some order if it does not matter. -/
def OperandsMatch (P : Program Op Blk) (R : Value Op Blk → Value Op Blk → Prop) (l r : Op) : Prop :=
  if (P.kind l).name.isCommutative then
    ∃ ys, ys.Perm (P.operands r) ∧ List.Forall₂ R (P.operands l) ys
  else List.Forall₂ R (P.operands l) (P.operands r)

namespace Matching

variable {M : Type → Type} [Monad M] {L : MonadLogic M S}
  {check : Value Op Blk → Value Op Blk → M (EvalResult Bool)} {m : Matching Op Blk} {s : S} {J}

/-- How the inner loop of `compareCommutative` ends. -/
def EndsTaking (P : Program Op Blk) (m : Matching Op Blk) (J : Judging Op Blk S) (s : S)
    (x : Value Op Blk) (rs : List (Value Op Blk × Bool)) :
    EvalResult (Option (List (Value Op Blk × Bool))) → S → Prop
  | .completed (some rs'), t => J.Rel s t ∧ (∀ r ∈ rs', P.Valid r.1) ∧
      ∃ y, m.Agrees P J.yes x y ∧ (unused rs).Perm (y :: unused rs')
  | .completed none, t => J.Rel s t ∧ ∀ y ∈ unused rs, m.Differs P J.no x y
  | .signal st, t => J.Stops s st t

omit [DecidableEq Op] [DecidableEq Blk] in
theorem unused_cons_used (y : Value Op Blk) (rs : List (Value Op Blk × Bool)) :
    unused ((y, true) :: rs) = unused rs := by simp [unused]

omit [DecidableEq Op] [DecidableEq Blk] in
theorem unused_cons_free (y : Value Op Blk) (rs : List (Value Op Blk × Bool)) :
    unused ((y, false) :: rs) = y :: unused rs := by simp [unused]

omit [DecidableEq Op] [DecidableEq Blk] in
theorem unused_map_free (ys : List (Value Op Blk)) : unused (ys.map fun y => (y, false)) = ys := by
  induction ys with
  | nil => rfl
  | cons y ys ih => rw [List.map_cons, unused_cons_free, ih]

section Rules

variable (hJ : J.Kept L check (m.Asks P))

include hJ

theorem wp_compareValues {x y : Value Op Blk} (hs : J.Inv s) (hx : P.Valid x) (hy : P.Valid y) :
    L.wp (m.compareValues P check x y) s
      (J.Ends s (m.Agrees P J.yes x y) (m.Differs P J.no x y)) := by
  rw [compareValues]
  cases hmatch : m.matchValues P x y with
  | none =>
    refine L.wp_mono (hJ.check s x y hs ⟨hx, hy, hmatch⟩) fun r t h => h.mono ?_ ?_
    · exact fun h => Or.inr ⟨hmatch, h⟩
    · exact fun h => Or.inr ⟨hmatch, h⟩
  | some b =>
    refine L.wp_pure ?_
    cases b with
    | true => exact ⟨hJ.refl s hs, Or.inl hmatch⟩
    | false => exact ⟨hJ.refl s hs, Or.inl hmatch⟩

/-- `compareOperands` compares one by one. -/
theorem wp_compareOperands {xs ys : List (Value Op Blk)} (hs : J.Inv s)
    (hxs : ∀ x ∈ xs, P.Valid x) (hys : ∀ y ∈ ys, P.Valid y) (hlen : xs.length = ys.length) :
    L.wp (m.compareOperands P check xs ys) s
      (J.Ends s (List.Forall₂ (m.Agrees P J.yes) xs ys)
        (m.Consistent P J → ¬ List.Forall₂ (m.Agrees P J.yes) xs ys)) := by
  induction xs generalizing s ys with
  | nil =>
    cases ys with
    | nil => exact L.wp_pure ⟨hJ.refl s hs, .nil⟩
    | cons y ys => simp at hlen
  | cons x xs ih =>
    cases ys with
    | nil => simp at hlen
    | cons y ys =>
      rw [compareOperands]
      refine L.wp_bind (L.wp_mono (wp_compareValues hJ hs (hxs x (by simp)) (hys y (by simp))) ?_)
      rintro ((_ | _) | st) t h
      · refine L.wp_pure ⟨h.1, fun hno hall => ?_⟩
        cases hall with
        | cons hxy _ => exact hno x y h.2 hxy
      · refine L.wp_mono (ih (hJ.inv s t h.1) (fun z hz => hxs z (by simp [hz]))
          (fun z hz => hys z (by simp [hz])) (by simpa using hlen)) fun r u hu => ?_
        refine (Judging.Ends.after hJ h.1 hu).mono (fun hall => .cons h.2 hall) fun hnot hno hall =>
          ?_
        cases hall with
        | cons _ hall => exact hnot hno hall
      · exact L.wp_pure h

/-- `takeFirst` takes a candidate that matches, unless none does. -/
theorem wp_takeFirst {x : Value Op Blk} {rs : List (Value Op Blk × Bool)} (hs : J.Inv s)
    (hx : P.Valid x) (hrs : ∀ r ∈ rs, P.Valid r.1) :
    L.wp (m.takeFirst P check x rs) s (m.EndsTaking P J s x rs) := by
  induction rs generalizing s with
  | nil => exact L.wp_pure ⟨hJ.refl s hs, by simp [unused]⟩
  | cons r rs ih =>
    obtain ⟨y, used⟩ := r
    have hrs' : ∀ r ∈ rs, P.Valid r.1 := fun r hr => hrs r (by simp [hr])
    rw [takeFirst]
    cases used with
    | true =>
      refine L.wp_bind (L.wp_mono (ih hs hrs') ?_)
      rintro ((_ | rs') | st) t h
      · exact L.wp_pure ⟨h.1, by rw [unused_cons_used]; exact h.2⟩
      · obtain ⟨hrel, hvalid, z, hz, hperm⟩ := h
        refine L.wp_pure ⟨hrel, List.forall_mem_cons.mpr ⟨hrs _ (by simp), hvalid⟩, z, hz, ?_⟩
        rw [unused_cons_used, unused_cons_used]
        exact hperm
      · exact L.wp_pure h
    | false =>
      refine L.wp_bind (L.wp_mono (wp_compareValues hJ hs hx (hrs (y, false) (by simp))) ?_)
      rintro ((_ | _) | st) t h
      · refine L.wp_bind (L.wp_mono (ih (hJ.inv s t h.1) hrs') ?_)
        rintro ((_ | rs') | st) u hu
        · refine L.wp_pure ⟨hJ.trans s t u h.1 hu.1, ?_⟩
          rw [unused_cons_free]
          exact List.forall_mem_cons.mpr ⟨h.2, hu.2⟩
        · obtain ⟨hrel, hvalid, z, hz, hperm⟩ := hu
          refine L.wp_pure ⟨hJ.trans s t u h.1 hrel,
            List.forall_mem_cons.mpr ⟨hrs _ (by simp), hvalid⟩, z, hz, ?_⟩
          rw [unused_cons_free, unused_cons_free]
          exact (hperm.cons y).trans (.swap z y _)
        · exact L.wp_pure (hJ.stops s t u st h.1 hu)
      · refine L.wp_pure
          ⟨h.1, List.forall_mem_cons.mpr ⟨hrs (y, false) (by simp), hrs'⟩, y, h.2, ?_⟩
        rw [unused_cons_free, unused_cons_used]
      · exact L.wp_pure h

/-- `pairUp` pairs all operands up, unless that is impossible. -/
theorem wp_pairUp {xs : List (Value Op Blk)} {rs : List (Value Op Blk × Bool)} (hs : J.Inv s)
    (hxs : ∀ x ∈ xs, P.Valid x) (hrs : ∀ r ∈ rs, P.Valid r.1) :
    L.wp (m.pairUp P check xs rs) s
      (J.Ends s (PairsInto (m.Agrees P J.yes) xs (unused rs))
        (m.Consistent P J → Zigzag (m.Agrees P J.yes) →
          ¬ PairsInto (m.Agrees P J.yes) xs (unused rs))) := by
  induction xs generalizing s rs with
  | nil => exact L.wp_pure ⟨hJ.refl s hs, .nil _⟩
  | cons x xs ih =>
    rw [pairUp]
    refine L.wp_bind (L.wp_mono (wp_takeFirst hJ hs (hxs x (by simp)) hrs) ?_)
    rintro ((_ | rs') | st) t h
    · refine L.wp_pure ⟨h.1, fun hno _ hpairs => ?_⟩
      obtain ⟨y, hy, hxy⟩ := hpairs.head
      exact hno x y (h.2 y hy) hxy
    · obtain ⟨hrel, hvalid, y, hxy, hperm⟩ := h
      refine L.wp_mono
        (ih (hJ.inv s t hrel) (fun z hz => hxs z (by simp [hz])) hvalid) fun r u hu => ?_
      refine (Judging.Ends.after hJ hrel hu).mono (fun hpairs => (hpairs.cons hxy).perm hperm) ?_
      exact fun hnot hno hzigzag hpairs =>
        hnot hno hzigzag ((hpairs.perm hperm.symm).tail hzigzag hxy)
    · exact L.wp_pure h

/-- `compareCommutative` compares in any order. -/
theorem wp_compareCommutative {xs ys : List (Value Op Blk)} (hs : J.Inv s)
    (hxs : ∀ x ∈ xs, P.Valid x) (hys : ∀ y ∈ ys, P.Valid y) (hlen : xs.length = ys.length) :
    L.wp (m.compareCommutative P check xs ys) s
      (J.Ends s (∃ ys', ys'.Perm ys ∧ List.Forall₂ (m.Agrees P J.yes) xs ys')
        (m.Consistent P J → Zigzag (m.Agrees P J.yes) →
          ¬ ∃ ys', ys'.Perm ys ∧ List.Forall₂ (m.Agrees P J.yes) xs ys')) := by
  rw [compareCommutative]
  refine L.wp_mono (wp_pairUp hJ hs hxs (by simpa using hys)) fun r t h => h.mono ?_ ?_
  · intro hpairs
    rw [unused_map_free] at hpairs
    exact hpairs.perm_of_length hlen
  · rintro hnot hno hzigzag ⟨ys', hperm, hall⟩
    rw [unused_map_free] at hnot
    exact hnot hno hzigzag (.of_perm hperm hall)

/-- **The third pass compares the operands of all pairs.** -/
theorem wp_compareAll {ops : List (Op × Op)} (hs : J.Inv s)
    (hvalid : ∀ op, ∀ v ∈ P.operands op, P.Valid v)
    (hlen : ∀ p ∈ ops, (P.operands p.1).length = (P.operands p.2).length) :
    L.wp (m.compareAll P check ops) s
      (J.Ends s (∀ p ∈ ops, OperandsMatch P (m.Agrees P J.yes) p.1 p.2)
        (m.Consistent P J → Zigzag (m.Agrees P J.yes) →
          ∃ p ∈ ops, ¬ OperandsMatch P (m.Agrees P J.yes) p.1 p.2)) := by
  induction ops generalizing s with
  | nil => exact L.wp_pure ⟨hJ.refl s hs, by simp⟩
  | cons p ops ih =>
    obtain ⟨l, r⟩ := p
    have hlen' : (P.operands l).length = (P.operands r).length := hlen (l, r) (by simp)
    -- The rest of the pass, `f`, after the operands of the first pair were compared by `first`.
    have rest : ∀ (f : EvalResult Bool → M (EvalResult Bool)),
        f (.completed true) = m.compareAll P check ops →
        f (.completed false) = pure (.completed false) →
        (∀ st, f (.signal st) = pure (.signal st)) → ∀ first : M (EvalResult Bool),
        L.wp first s (J.Ends s (OperandsMatch P (m.Agrees P J.yes) l r)
          (m.Consistent P J → Zigzag (m.Agrees P J.yes) →
            ¬ OperandsMatch P (m.Agrees P J.yes) l r)) →
        L.wp (first >>= f) s
          (J.Ends s (∀ p ∈ (l, r) :: ops, OperandsMatch P (m.Agrees P J.yes) p.1 p.2)
            (m.Consistent P J → Zigzag (m.Agrees P J.yes) →
              ∃ p ∈ (l, r) :: ops, ¬ OperandsMatch P (m.Agrees P J.yes) p.1 p.2)) := by
      refine fun f htrue hfalse hsignal first hfirst => L.wp_bind (L.wp_mono hfirst ?_)
      rintro ((_ | _) | st) t h
      · rw [hfalse]
        exact L.wp_pure ⟨h.1, fun hno hzigzag => ⟨(l, r), by simp, h.2 hno hzigzag⟩⟩
      · rw [htrue]
        refine L.wp_mono (ih (hJ.inv s t h.1) fun p hp => hlen p (by simp [hp])) fun q u hu => ?_
        refine (Judging.Ends.after hJ h.1 hu).mono
          (fun hall => List.forall_mem_cons.mpr ⟨h.2, hall⟩) fun hnot hno hzigzag => ?_
        obtain ⟨p, hp, hdiffer⟩ := hnot hno hzigzag
        exact ⟨p, by simp [hp], hdiffer⟩
      · rw [hsignal]
        exact L.wp_pure h
    rw [compareAll]
    split
    · next hcomm =>
      refine rest _ (by rfl) (by rfl) (fun _ => by rfl) _ (L.wp_mono
        (wp_compareCommutative hJ hs (hvalid l) (hvalid r) hlen') fun q t h => ?_)
      rw [OperandsMatch, if_pos hcomm]
      exact h
    · next hcomm =>
      refine rest _ (by rfl) (by rfl) (fun _ => by rfl) _ (L.wp_mono
        (wp_compareOperands hJ hs (hvalid l) (hvalid r) hlen') fun q t h => ?_)
      rw [OperandsMatch, if_neg hcomm]
      exact h.mono id fun hnot hno _ => hnot hno

end Rules

end Matching

/-! ## What the comparison decides -/

/-- Only the callback can compare two values: they are distinct, of one type and from outside. -/
def Askable (P : Program Op Blk) (lhs rhs : Op) (x y : Value Op Blk) : Prop :=
  ¬ P.DefinedIn lhs x ∧ ¬ P.DefinedIn rhs y ∧ x ≠ y ∧ P.valueType x = P.valueType y

/-- Two values cannot match, whatever the callback says. -/
def CannotMatch (P : Program Op Blk) (lhs rhs : Op) (x y : Value Op Blk) : Prop :=
  (P.DefinedIn lhs x ∨ P.DefinedIn rhs y) ∧ ¬ CorrespondingValues P lhs rhs x y ∨
    ¬ P.DefinedIn lhs x ∧ ¬ P.DefinedIn rhs y ∧ P.valueType x ≠ P.valueType y

/-- Two values match: both are defined inside and correspond, or both are defined outside and are
the same, or related values of one type. -/
def Matches (P : Program Op Blk) (lhs rhs : Op) (R : Value Op Blk → Value Op Blk → Prop)
    (x y : Value Op Blk) : Prop :=
  CorrespondingValues P lhs rhs x y ∨
    ¬ P.DefinedIn lhs x ∧ ¬ P.DefinedIn rhs y ∧ (x = y ∨ P.valueType x = P.valueType y ∧ R x y)

/-- No operand of corresponding operations that are not commutative is known not to match. -/
def OperandsFit (P : Program Op Blk) (lhs rhs : Op) : Prop :=
  ∀ l r, Corresponds P lhs rhs l r → (P.kind l).name.isCommutative = false →
    ∀ (i : ℕ) x y, (P.operands l)[i]? = some x → (P.operands r)[i]? = some y →
      ¬ CannotMatch P lhs rhs x y

/-- **Equivalent operations**: they are isomorphic, and the operands of corresponding operations
match. -/
def EquivalentUnder (P : Program Op Blk) (R : Value Op Blk → Value Op Blk → Prop) (lhs rhs : Op) :
    Prop :=
  Isomorphic P lhs rhs ∧
    ∀ l r, Corresponds P lhs rhs l r → OperandsMatch P (Matches P lhs rhs R) l r

namespace Matching

variable {lhs rhs : Op} {m : Matching Op Blk} {x y : Value Op Blk}
  {R R' : Value Op Blk → Value Op Blk → Prop}

theorem agrees_iff : m.Agrees P R x y ↔ m.values.lookup x = some y ∨
    m.values.lookup x = none ∧ y ∉ m.rhsValues ∧
      (x = y ∨ P.valueType x = P.valueType y ∧ R x y) := by
  rw [Agrees, matchValues]
  cases m.values.lookup x with
  | some z => simp
  | none =>
    by_cases hy : y ∈ m.rhsValues
    · simp [hy]
    · by_cases hxy : x = y
      · simp [hy, hxy]
      · by_cases htype : P.valueType x = P.valueType y
        · simp [hy, hxy, htype]
        · simp [hy, hxy, htype]

/-- **Matching is a zigzag**, if the callback is symmetric and transitive. -/
theorem agrees_zigzag (hm : ∀ x y, m.values.lookup x = some y → y ∈ m.rhsValues)
    (hsymm : ∀ x y, R x y → R y x) (htrans : ∀ x y z, R x y → R y z → R x z) :
    Zigzag (m.Agrees P R) := by
  intro x x' y y' hxy hxy₂ hxy₃
  rw [agrees_iff] at hxy hxy₂ hxy₃ ⊢
  rcases hxy with hxy | ⟨hx, hy, hxy⟩
  · rcases hxy₂ with hxy₂ | ⟨-, hy, -⟩
    · rcases hxy₃ with hxy₃ | ⟨hx', -, -⟩
      · rw [← Option.some.inj (hxy₂.symm.trans hxy₃)]
        exact Or.inl hxy
      · simp [hx'] at hxy₂
    · exact absurd (hm x y hxy) hy
  · rcases hxy₂ with hxy₂ | ⟨hx', -, hxy₂⟩
    · exact absurd (hm x' y hxy₂) hy
    · rcases hxy₃ with hxy₃ | ⟨-, hy', hxy₃⟩
      · simp [hxy₃] at hx'
      · -- All four values are from outside.
        refine Or.inr ⟨hx, hy', ?_⟩
        rcases hxy with rfl | ⟨ht, hr⟩ <;> rcases hxy₂ with rfl | ⟨ht', hr'⟩ <;>
          rcases hxy₃ with rfl | ⟨ht'', hr''⟩
        · exact Or.inl rfl
        · exact Or.inr ⟨ht'', hr''⟩
        · exact Or.inr ⟨ht'.symm, hsymm _ _ hr'⟩
        · exact Or.inr ⟨ht'.symm.trans ht'', htrans _ _ _ (hsymm _ _ hr') hr''⟩
        · exact Or.inr ⟨ht, hr⟩
        · exact Or.inr ⟨ht.trans ht'', htrans _ _ _ hr hr''⟩
        · exact Or.inr ⟨ht.trans ht'.symm, htrans _ _ _ hr (hsymm _ _ hr')⟩
        · exact Or.inr ⟨ht.trans (ht'.symm.trans ht''),
            htrans _ _ _ hr (htrans _ _ _ (hsymm _ _ hr') hr'')⟩

section Exact

variable (hiso : Isomorphic P lhs rhs) (hm : m.Exact P lhs rhs) (hx : P.Valid x) (hy : P.Valid y)

include hiso hm hx

theorem lookup_eq_none_iff : m.values.lookup x = none ↔ ¬ P.DefinedIn lhs x := by
  constructor
  · intro hnone hin
    obtain ⟨y, hxy⟩ := hiso.value hin
    rw [(hm.values x y hx).mpr hxy] at hnone
    simp at hnone
  · intro hout
    cases hlook : m.values.lookup x with
    | none => rfl
    | some y => exact absurd ((hm.values x y hx).mp hlook).left hout

include hy

theorem agrees_iff_matches : m.Agrees P R x y ↔ Matches P lhs rhs R x y := by
  rw [agrees_iff, Matches, hm.values x y hx, lookup_eq_none_iff hiso hm hx, hm.rhsValues y hy]

theorem matchValues_eq_none_iff : m.matchValues P x y = none ↔ Askable P lhs rhs x y := by
  rw [Askable, ← lookup_eq_none_iff hiso hm hx, ← hm.rhsValues y hy, matchValues]
  cases m.values.lookup x with
  | some z => simp
  | none =>
    by_cases hy : y ∈ m.rhsValues
    · simp [hy]
    · by_cases hxy : x = y
      · simp [hy, hxy]
      · simp [hy, hxy]

theorem matchValues_eq_false_iff :
    m.matchValues P x y = some false ↔ CannotMatch P lhs rhs x y := by
  rw [CannotMatch, ← hm.values x y hx, ← hm.rhsValues y hy]
  have hin : P.DefinedIn lhs x ↔ ¬ m.values.lookup x = none := by
    rw [lookup_eq_none_iff hiso hm hx, not_not]
  rw [hin, not_not, matchValues]
  cases m.values.lookup x with
  | some z => simp
  | none =>
    by_cases hy : y ∈ m.rhsValues
    · simp [hy]
    · by_cases hxy : x = y
      · simp [hy, hxy]
      · simp [hy, hxy]

end Exact

omit [DecidableEq Op] [DecidableEq Blk] in
theorem forall₂_congr_valid {R' : Value Op Blk → Value Op Blk → Prop}
    (h : ∀ x y, P.Valid x → P.Valid y → (R x y ↔ R' x y)) {xs ys : List (Value Op Blk)}
    (hxs : ∀ x ∈ xs, P.Valid x) (hys : ∀ y ∈ ys, P.Valid y) :
    List.Forall₂ R xs ys ↔ List.Forall₂ R' xs ys := by
  induction xs generalizing ys with
  | nil => cases ys <;> simp
  | cons x xs ih =>
    cases ys with
    | nil => simp
    | cons y ys =>
      rw [List.forall₂_cons, List.forall₂_cons, h x y (hxs x (by simp)) (hys y (by simp)),
        ih (fun z hz => hxs z (by simp [hz])) fun z hz => hys z (by simp [hz])]

omit [DecidableEq Op] [DecidableEq Blk] in
theorem operandsMatch_congr (hvalid : ∀ op, ∀ v ∈ P.operands op, P.Valid v)
    (h : ∀ x y, P.Valid x → P.Valid y → (R x y ↔ R' x y)) (l r : Op) :
    OperandsMatch P R l r ↔ OperandsMatch P R' l r := by
  rw [OperandsMatch, OperandsMatch]
  split
  · refine exists_congr fun ys => and_congr_right fun hperm => ?_
    exact forall₂_congr_valid h (hvalid l) fun y hy => hvalid r y (hperm.mem_iff.mp hy)
  · exact forall₂_congr_valid h (hvalid l) (hvalid r)

/-- The second pass finds the operands that cannot match. -/
theorem operandsCorrespond_iff (hP : P.WellFormed) (hiso : Isomorphic P lhs rhs)
    (hm : m.Exact P lhs rhs) : m.operandsCorrespond P = true ↔ OperandsFit P lhs rhs := by
  have one : ∀ (l r : Op) (i : ℕ) x y, (P.operands l)[i]? = some x → (P.operands r)[i]? = some y →
      (m.matchValues P x y ≠ some false ↔ ¬ CannotMatch P lhs rhs x y) := fun l r i x y hx hy => by
    rw [ne_eq, matchValues_eq_false_iff hiso hm (hP.valid l x (List.mem_of_getElem? hx))
      (hP.valid r y (List.mem_of_getElem? hy))]
  rw [operandsCorrespond, List.all_eq_true]
  constructor
  · intro h l r hlr hcomm i x y hx hy
    have hp := h (l, r) ((hm.ops (l, r)).mpr hlr)
    rw [hcomm, Bool.false_or, List.all_eq_true] at hp
    refine (one l r i x y hx hy).mp (of_decide_eq_true (hp (x, y) ?_))
    exact List.mem_of_getElem? (i := i) (List.getElem?_zip_eq_some.mpr ⟨hx, hy⟩)
  · rintro h ⟨l, r⟩ hp
    rw [Bool.or_eq_true, List.all_eq_true]
    cases hcomm : (P.kind l).name.isCommutative with
    | true => exact Or.inl rfl
    | false =>
      refine Or.inr ?_
      rintro ⟨x, y⟩ hxy
      obtain ⟨i, hi⟩ := List.mem_iff_getElem?.mp hxy
      obtain ⟨hx, hy⟩ := List.getElem?_zip_eq_some.mp hi
      exact decide_eq_true ((one l r i x y hx hy).mpr
        (h l r ((hm.ops (l, r)).mp hp) hcomm i x y hx hy))

end Matching

section Check

variable [Fintype Op] {M : Type → Type} [Monad M] {L : MonadLogic M S}
  {check : Value Op Blk → Value Op Blk → M (EvalResult Bool)} {lhs rhs : Op} {s : S} {J}

/-- **Nothing is asked before the structure matches.** -/
theorem checkOperations_eq (hP : P.WellFormed)
    (h : ¬ (Isomorphic P lhs rhs ∧ OperandsFit P lhs rhs)) :
    checkOperations P check lhs rhs = pure (.completed false) := by
  rw [checkOperations]
  cases hmatch : Matching.matchOperation P (Fintype.card Op + 1) .empty lhs rhs with
  | none => rfl
  | some m =>
    obtain ⟨hiso, hm⟩ := Matching.matchOperation_exact hP hmatch
    simp only
    rw [if_neg]
    rw [Matching.operandsCorrespond_iff hP hiso hm]
    exact fun hfit => h ⟨hiso, hfit⟩

/-- **The comparison decides equivalence**, unless the callback signals. -/
theorem wp_checkOperations (hP : P.WellFormed) (hJ : J.Kept L check fun x y =>
      P.Valid x ∧ P.Valid y ∧ Askable P lhs rhs x y) (hs : J.Inv s) :
    L.wp (checkOperations P check lhs rhs) s (J.Ends s (EquivalentUnder P J.yes lhs rhs)
      ((∀ x y, J.no x y → ¬ J.yes x y) → (∀ x y, J.yes x y → J.yes y x) →
        (∀ x y z, J.yes x y → J.yes y z → J.yes x z) → ¬ EquivalentUnder P J.yes lhs rhs)) := by
  rw [checkOperations]
  cases hmatch : Matching.matchOperation P (Fintype.card Op + 1) .empty lhs rhs with
  | none =>
    have hiso := (Matching.matchOperation_eq_none_iff hP).mp hmatch
    exact L.wp_pure ⟨hJ.refl s hs, fun _ _ _ h => hiso h.1⟩
  | some m =>
    obtain ⟨hiso, hm⟩ := Matching.matchOperation_exact hP hmatch
    have hagrees : ∀ x y, P.Valid x → P.Valid y →
        (m.Agrees P J.yes x y ↔ Matches P lhs rhs J.yes x y) := fun x y hx hy =>
      Matching.agrees_iff_matches hiso hm hx hy
    have heq : (∀ p ∈ m.ops, OperandsMatch P (m.Agrees P J.yes) p.1 p.2) ↔
        ∀ l r, Corresponds P lhs rhs l r → OperandsMatch P (Matches P lhs rhs J.yes) l r := by
      constructor
      · exact fun h l r hlr => (Matching.operandsMatch_congr hP.valid hagrees l r).mp
          (h (l, r) ((hm.ops (l, r)).mpr hlr))
      · exact fun h p hp => (Matching.operandsMatch_congr hP.valid hagrees p.1 p.2).mpr
          (h p.1 p.2 ((hm.ops p).mp hp))
    simp only
    split
    · have hJ' : J.Kept L check (m.Asks P) := ⟨hJ.refl, hJ.trans, hJ.inv, hJ.stops,
        fun s x y hs hxy => hJ.check s x y hs ⟨hxy.1, hxy.2.1,
          (Matching.matchValues_eq_none_iff hiso hm hxy.1 hxy.2.1).mp hxy.2.2⟩⟩
      have hlen : ∀ p ∈ m.ops, (P.operands p.1).length = (P.operands p.2).length := fun p hp =>
        (hiso p.1 p.2 ((hm.ops p).mp hp)).alike.operands
      refine L.wp_mono (Matching.wp_compareAll hJ' hs hP.valid hlen) fun r t h => h.mono ?_ ?_
      · exact fun h => ⟨hiso, heq.mp h⟩
      · rintro hnot hno hsymm htrans ⟨-, hall⟩
        have hconsistent : m.Consistent P J := fun x y hdiff hag => by
          rcases hdiff with h₁ | ⟨h₁, h₂⟩ <;> rcases hag with h₃ | ⟨h₃, h₄⟩
          · simp [h₁] at h₃
          · simp [h₁] at h₃
          · simp [h₁] at h₃
          · exact hno x y h₂ h₄
        obtain ⟨p, hp, hdiffer⟩ := hnot hconsistent (Matching.agrees_zigzag hm.mapped hsymm htrans)
        exact hdiffer (heq.mpr hall p hp)
    · next hfit =>
      refine L.wp_pure ⟨hJ.refl s hs, ?_⟩
      rintro - - - ⟨-, hall⟩
      rw [Matching.operandsCorrespond_iff hP hiso hm] at hfit
      refine hfit fun l r hlr hcomm i x y hx hy hcannot => ?_
      have hmatch := hall l r hlr
      rw [OperandsMatch, hcomm, if_neg (by simp)] at hmatch
      have hxy := (List.forall₂_iff_get.mp hmatch).2 i (List.getElem?_eq_some_iff.mp hx).1
        (List.getElem?_eq_some_iff.mp hy).1
      rw [List.get_eq_getElem, List.get_eq_getElem, (List.getElem?_eq_some_iff.mp hx).2,
        (List.getElem?_eq_some_iff.mp hy).2] at hxy
      rcases hxy with hcorr | ⟨hx', hy', hval⟩
      · rcases hcannot with ⟨-, hnot⟩ | ⟨hnot, -, -⟩
        · exact hnot hcorr
        · exact hnot hcorr.left
      · rcases hcannot with ⟨hin | hin, -⟩ | ⟨-, -, htype⟩
        · exact hx' hin
        · exact hy' hin
        · rcases hval with rfl | ⟨ht, -⟩
          · exact htype rfl
          · exact htype ht

end Check

end MlirInterpreter
