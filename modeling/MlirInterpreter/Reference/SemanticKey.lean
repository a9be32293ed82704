import MlirInterpreter.Reference.ArithKey
import MlirInterpreter.Sharing.Machine

/-!
# The semantic key of an operation

In a program without loops no block is ever bound, so an operation has one key, which the reference
values of its operands determine: `semanticKey`.  Operations with equal keys are `SharesKey`, and
they have equal results (`SharesKey.denote_eq`).

To find the key of an operation not all operands are needed, `neededOperands`.  This makes the
operations of a program a graph for the machine of `Sharing`, `sharingGraph`.
-/

set_option autoImplicit false

namespace MlirInterpreter

variable {Op Blk : Type}

section

variable [DecidableEq Op] [DecidableEq Blk]

/-- The value of `v` where no block is bound. -/
abbrev Program.denote [Fintype Op] (P : Program Op Blk) (v : Value Op Blk) : Option APInt :=
  reference P Env.empty v

/-- The `arith` operation that defines a value, if one does. -/
def Program.arithOp? (P : Program Op Blk) : Value Op Blk → Option Op
  | .result op _ => if P.isArith op then some op else none
  | .arg _ _ => none

end

theorem Program.arithOp?_eq_some {P : Program Op Blk} {v : Value Op Blk} {op : Op}
    (h : P.arithOp? v = some op) : P.isArith op = true ∧ ∃ i, v = .result op i := by
  cases v with
  | arg b i => cases h
  | result o i =>
    rw [arithOp?] at h
    split at h
    · next harith =>
      obtain rfl := Option.some.inj h
      exact ⟨harith, i, rfl⟩
    · cases h

theorem Program.arithOp?_result {P : Program Op Blk} {op : Op} (h : P.isArith op = true) (i : ℕ) :
    P.arithOp? (.result op i) = some op := if_pos h

namespace Arith

open Reference

/-- A handle of `x`; keys are compared up to the addresses of their handles. -/
def handleOf (x : APInt) : EvalValue APInt := ⟨0, .cache, x⟩

/-- The answer for an operand with the value `x`. -/
def answerOf (x : Option APInt) : Answer APInt := .completed (x.map handleOf)

@[simp] theorem answerOf_payload? (x : Option APInt) : (answerOf x).payload? = x := by
  cases x <;> rfl

/-- Is the right operand not needed, if the left one is `x`? -/
def decides (product : Bool) (x : Option APInt) : Bool :=
  product && Reference.isZero x || x.isNone && !product

/-- The key of `op`, if its operands are `x` and `y`. -/
def keyOf (product : Bool) (op : Op) (x y : Option APInt) : BinaryKey Op :=
  if product && (Reference.isZero x || Reference.isZero y) then .zeroProduct
  else match x, y with
    | some x, some y => .operands (handleOf x) (handleOf y)
    | _, _ => .identity op

theorem keyOf_of_zero {op : Op} {x y : Option APInt}
    (h : Reference.isZero x = true ∨ Reference.isZero y = true) :
    keyOf true op x y = .zeroProduct := by
  unfold keyOf
  rw [if_pos (by simpa using h)]

theorem keyOf_of_unknown {product : Bool} {op : Op} {x y : Option APInt}
    (hz : product = true → Reference.isZero x = false ∧ Reference.isZero y = false)
    (h : x = none ∨ y = none) : keyOf product op x y = .identity op := by
  unfold keyOf
  rw [if_neg]
  · rcases h with rfl | rfl
    · rfl
    · cases x <;> rfl
  · rw [Bool.and_eq_true, Bool.or_eq_true]
    rintro ⟨hp, hzero⟩
    simp [hz hp] at hzero

theorem keyOf_of_known {product : Bool} {op : Op} {x y : APInt}
    (hz : product = true → x.isZero = false ∧ y.isZero = false) :
    keyOf product op (some x) (some y) = .operands (handleOf x) (handleOf y) := by
  unfold keyOf
  rw [if_neg]
  rw [Bool.and_eq_true, Bool.or_eq_true]
  rintro ⟨hp, hzero⟩
  simp [Reference.isZero, hz hp] at hzero

section Key

variable {P : Program Op Blk} {H : HashFns Op Blk} {op other : Op} {l r : Value Op Blk}

/-- A key fits the operands it was made of. -/
theorem keyFits_keyOf (x y : Option APInt) :
    KeyFits P op (answerOf x) (answerOf y) (keyOf (isProduct P op) op x y) := by
  unfold keyOf
  split
  · next hz =>
    rw [Bool.and_eq_true, Bool.or_eq_true] at hz
    exact ⟨of_decide_eq_true hz.1, by simpa using hz.2⟩
  · next hz =>
    have hzero : (P.kind op).name = .muli →
        Reference.isZero x = false ∧ Reference.isZero y = false := by
      intro hmul
      simpa [isProduct, hmul] using hz
    cases x with
    | none => exact ⟨rfl, by simpa using ofArith_unknown hzero (Or.inl rfl)⟩
    | some x =>
      cases y with
      | none => exact ⟨rfl, by simpa using ofArith_unknown hzero (Or.inr rfl)⟩
      | some y => exact ⟨rfl, rfl⟩

variable [Fintype Op] [DecidableEq Op] [DecidableEq Blk]

/-- The key of an operation: the zero product or the values of the operands for an `arith` operation
with known operands, and the operation itself otherwise. -/
def semanticKey (P : Program Op Blk) (op : Op) : BinaryKey Op :=
  match P.isArith op, P.operands op with
  | true, [l, r] => keyOf (isProduct P op) op (P.denote l) (P.denote r)
  | _, _ => .identity op

/-- The operands the key of an operation is made of, in order. -/
def neededOperands (P : Program Op Blk) (op : Op) : List (Value Op Blk) :=
  match P.operands op with
  | [l, r] => if decides (isProduct P op) (P.denote l) then [l] else [l, r]
  | _ => []

/-- Operations with equal keys: of one kind, type and flags, and with the same operands, in any
order if the operation is commutative. -/
def SharesKey (P : Program Op Blk) (op other : Op) : Prop :=
  SameHead P op other ∧
    SameKey (P.kind op).name.isCommutative (semanticKey P op) (semanticKey P other)

theorem semanticKey_arith (harith : P.isArith op = true) (ho : P.operands op = [l, r]) :
    semanticKey P op = keyOf (isProduct P op) op (P.denote l) (P.denote r) := by
  unfold semanticKey
  rw [harith, ho]

theorem semanticKey_of_not_arith (h : P.isArith op = false) : semanticKey P op = .identity op := by
  unfold semanticKey
  rw [h]

theorem mem_of_neededOperands {v : Value Op Blk} (h : v ∈ neededOperands P op) :
    v ∈ P.operands op := by
  unfold neededOperands at h
  split at h
  · next ho =>
    rw [ho]
    split at h
    · rw [List.mem_singleton.mp h]
      exact List.mem_cons_self
    · exact h
  · cases h

theorem SharesKey.refl (op : Op) : SharesKey P op op := ⟨⟨rfl, rfl, rfl⟩, .refl _ _⟩

theorem SharesKey.symm (h : SharesKey P op other) : SharesKey P other op :=
  ⟨⟨h.1.1.symm, h.1.2.1.symm, h.1.2.2.symm⟩, h.1.1 ▸ h.2.symm⟩

theorem SharesKey.trans {third : Op} (h : SharesKey P op other) (h' : SharesKey P other third) :
    SharesKey P op third :=
  ⟨⟨h.1.1.trans h'.1.1, h.1.2.1.trans h'.1.2.1, h.1.2.2.trans h'.1.2.2⟩,
    h.2.trans (h.1.1.symm ▸ h'.2)⟩

/-- An operation that is not an `arith` operation is alike only itself. -/
theorem SharesKey.eq_of_not_arith (h : SharesKey P op other) (hn : P.isArith op = false) :
    op = other := by
  have hkey := h.2
  rw [semanticKey_of_not_arith hn,
    semanticKey_of_not_arith (Program.isArith_congr h.1.1 ▸ hn)] at hkey
  exact hkey

/-- The result of an `arith` operation. -/
theorem denote_arith (hA : P.Acyclic) (harith : P.isArith op = true) (ho : P.operands op = [l, r])
    (i : ℕ) :
    P.denote (.result op i) = ofArith (P.kind op).name (P.denote l) (P.denote r) := by
  rw [Program.denote, reference_result hA, opResult_arith ho harith]

/-- **Operations with equal keys have equal results.** -/
theorem SharesKey.denote_eq (hP : P.Verified) (hA : P.Acyclic) (h : SharesKey P op other) (i : ℕ) :
    P.denote (.result op i) = P.denote (.result other i) := by
  cases harith : P.isArith op with
  | false => rw [h.eq_of_not_arith harith]
  | true =>
    have harith' : P.isArith other = true := Program.isArith_congr h.1.1 ▸ harith
    obtain ⟨l, r, t, hshape⟩ := hP.arith op harith
    obtain ⟨l', r', t', hshape'⟩ := hP.arith other harith'
    obtain rfl : t = t' := by simpa [hshape.results, hshape'.results] using h.1.2.1
    have typed : ∀ {o : Op} {v : Value Op Blk}, v ∈ P.operands o →
        HasType (P.valueType v) (P.denote v) := fun hv =>
      reference_hasType hP .empty (hP.valid _ _ hv)
    have hkey := h.2
    rw [semanticKey_arith harith hshape.operands,
      semanticKey_arith harith' hshape'.operands] at hkey
    rw [denote_arith hA harith hshape.operands, denote_arith hA harith' hshape'.operands]
    have heq := hkey.ofArith_eq (t := t) h.1.1 (keyFits_keyOf _ _) (keyFits_keyOf _ _)
      (by simpa [hshape.lhsType] using typed (o := op) (v := l) (by simp [hshape.operands]))
      (by simpa [hshape.rhsType] using typed (o := op) (v := r) (by simp [hshape.operands]))
      (by simpa [hshape'.lhsType] using typed (o := other) (v := l') (by simp [hshape'.operands]))
      (by simpa [hshape'.rhsType] using typed (o := other) (v := r') (by simp [hshape'.operands]))
    simpa using heq

/-! ## The graph of a program -/

/-- The operations of a program, as the machine of `Sharing` sees them.  Operations that are not
`arith` operations are not hashed; they are told apart by themselves. -/
def sharingGraph (P : Program Op Blk) (H : HashFns Op Blk) : Sharing.Graph Op (HashCode ⊕ Op) where
  needs op := (neededOperands P op).filterMap P.arithOp?
  hash op := if P.isArith op then .inl (hashKey P H op (semanticKey P op)) else .inr op
  comparable := SameHead P
  alike := SharesKey P
  known op := (P.denote (.result op 0)).isSome

theorem sharingGraph_hash (harith : P.isArith op = true) :
    (sharingGraph P H).hash op = .inl (hashKey P H op (semanticKey P op)) := if_pos harith

/-- What an operation needs, it demands. -/
theorem demands_of_needs {o : Op} (h : o ∈ (sharingGraph P H).needs op) :
    P.isArith o = true ∧ P.Demands op o := by
  obtain ⟨v, hv, ho⟩ := List.mem_filterMap.mp h
  obtain ⟨harith, i, rfl⟩ := Program.arithOp?_eq_some ho
  exact ⟨harith, Program.demands_of_operand (mem_of_neededOperands hv)⟩

theorem sharingGraph_lawful (hP : P.Verified) (hA : P.Acyclic) : (sharingGraph P H).Lawful where
  refl := .refl
  symm _ _ h := h.symm
  trans _ _ _ h h' := h.trans h'
  comparable _ _ h := h.1
  hash op other h := by
    have harith := Program.isArith_congr h.1.1
    change (if P.isArith other then _ else _) = (if P.isArith op then _ else _)
    rw [harith]
    cases hother : P.isArith other with
    | true => rw [if_pos rfl, if_pos rfl, SameKey.hashKey_eq h.1 h.2]
    | false => rw [if_neg (by simp), if_neg (by simp), h.eq_of_not_arith (harith.trans hother)]
  known op other h := congrArg Option.isSome (h.denote_eq hP hA 0)

end Key

end Arith

end MlirInterpreter
