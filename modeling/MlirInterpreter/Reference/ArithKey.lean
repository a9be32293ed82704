import MlirInterpreter.Dialects.SCF
import MlirInterpreter.Engine.Scripted
import MlirInterpreter.Reference.Properties

/-!
# The key of an `arith` operation is exact

`getKey` and the three `evaluate` methods ask for the operands in the same lazy order, so under a
script they ask the same questions, and they signal the same (`run_getKey`, `run_evaluate`).  What a
key says of the answers determines what `evaluate` returns (`KeyFits`), and equal keys say the same
(`SameKey.ofArith_eq`).
-/

set_option autoImplicit false

namespace MlirInterpreter

namespace Arith

open Reference

variable {Op Blk : Type} {P : Program Op Blk}
  {H : HashFns Op Blk} {script : Script Op Blk APInt} {s : ScriptState Op Blk APInt}

/-! ## Equal keys -/

/-- Two keys are equal, up to the addresses of the operands. -/
def SameKey (commutative : Bool) : BinaryKey Op → BinaryKey Op → Prop
  | .identity op, .identity op' => op = op'
  | .zeroProduct, .zeroProduct => True
  | .operands lhs rhs, .operands lhs' rhs' =>
    lhs.payload = lhs'.payload ∧ rhs.payload = rhs'.payload ∨
      commutative = true ∧ lhs.payload = rhs'.payload ∧ rhs.payload = lhs'.payload
  | _, _ => False

theorem SameKey.refl (commutative : Bool) (key : BinaryKey Op) : SameKey commutative key key := by
  cases key with
  | identity op => rfl
  | zeroProduct => trivial
  | operands lhs rhs => exact Or.inl ⟨rfl, rfl⟩

theorem SameKey.symm {commutative : Bool} {key key' : BinaryKey Op}
    (h : SameKey commutative key key') : SameKey commutative key' key := by
  cases key <;> cases key' <;> try exact h
  · exact Eq.symm h
  · rcases h with ⟨h₁, h₂⟩ | ⟨hc, h₁, h₂⟩
    · exact Or.inl ⟨h₁.symm, h₂.symm⟩
    · exact Or.inr ⟨hc, h₂.symm, h₁.symm⟩

theorem SameKey.trans {commutative : Bool} {key₁ key₂ key₃ : BinaryKey Op}
    (h : SameKey commutative key₁ key₂) (h' : SameKey commutative key₂ key₃) :
    SameKey commutative key₁ key₃ := by
  cases key₁ <;> cases key₂ <;> try exact h.elim
  · cases key₃ <;> try exact h'.elim
    exact Eq.trans h h'
  · exact h'
  · cases key₃ <;> try exact h'.elim
    rcases h with ⟨h₁, h₂⟩ | ⟨hc, h₁, h₂⟩ <;> rcases h' with ⟨h₃, h₄⟩ | ⟨hc', h₃, h₄⟩
    · exact Or.inl ⟨h₁.trans h₃, h₂.trans h₄⟩
    · exact Or.inr ⟨hc', h₁.trans h₃, h₂.trans h₄⟩
    · exact Or.inr ⟨hc, h₁.trans h₄, h₂.trans h₃⟩
    · exact Or.inl ⟨h₁.trans h₄, h₂.trans h₃⟩

/-- Operations of one kind, type and flags. -/
def SameHead (P : Program Op Blk) (op other : Op) : Prop :=
  (P.kind op).name = (P.kind other).name ∧ P.resultTypes op = P.resultTypes other ∧
    getOverflowFlags P op = getOverflowFlags P other

/-- **Equal keys hash equally.** -/
theorem SameKey.hashKey_eq {op other : Op} (hhead : SameHead P op other) {key key' : BinaryKey Op}
    (h : SameKey (P.kind op).name.isCommutative key key') :
    hashKey P H op key = hashKey P H other key' := by
  obtain ⟨hname, htypes, hflags⟩ := hhead
  have htype : P.valueType (.result op 0) = P.valueType (.result other 0) := by
    rw [Program.valueType, Program.valueType, htypes]
  cases key <;> cases key' <;> try exact h.elim
  · exact congrArg H.ofOp h
  · rw [hashKey, hashKey, hname, htype, hflags]
  · rw [hashKey, hashKey, ← hname, htype, hflags]
    rcases h with ⟨h₁, h₂⟩ | ⟨hc, h₁, h₂⟩
    · rw [h₁, h₂]
    · -- The smaller hash comes first on both sides.
      rw [h₁, h₂, hc]
      simp only [Bool.true_and, decide_eq_true_eq]
      split
      · next hlt => rw [if_neg (UInt64.lt_asymm hlt)]
      · next hle =>
        split
        · rfl
        · next hle' => rw [UInt64.le_antisymm (UInt64.not_lt.mp hle) (UInt64.not_lt.mp hle')]

/-! ## What a key says of the operands -/

/-- What the key of `op` says of the answers to its operands. -/
def KeyFits (P : Program Op Blk) (op : Op) (a b : Answer APInt) : BinaryKey Op → Prop
  | .identity o => o = op ∧ ofArith (P.kind op).name a.payload? b.payload? = none
  | .zeroProduct => (P.kind op).name = .muli ∧
      (Reference.isZero a.payload? = true ∨ Reference.isZero b.payload? = true)
  | .operands lhs rhs => a = .known lhs ∧ b = .known rhs

/-- A product with a known zero is that zero. -/
theorem product_zero {x y : Option APInt}
    (h : Reference.isZero x = true ∨ Reference.isZero y = true) :
    ∃ z, product x y = some z ∧ z.isZero = true ∧ (x = some z ∨ y = some z) := by
  have some_of : ∀ {z : Option APInt}, Reference.isZero z = true → ∃ c, z = some c ∧
      c.isZero = true := by
    intro z hz
    cases z with
    | none => simp [Reference.isZero] at hz
    | some c => exact ⟨c, rfl, hz⟩
  rw [product]
  split
  · next hz =>
    obtain ⟨z, rfl, hzero⟩ := some_of hz
    exact ⟨z, rfl, hzero, Or.inl rfl⟩
  · next hz =>
    obtain ⟨z, rfl, hzero⟩ := some_of (h.resolve_left hz)
    exact ⟨z, if_pos hzero, hzero, Or.inr rfl⟩

/-- **Equal keys mean equal results.** -/
theorem SameKey.ofArith_eq {op other : Op} {a b a' b' : Answer APInt} {t : Ty}
    {key key' : BinaryKey Op} (hname : (P.kind op).name = (P.kind other).name)
    (h : SameKey (P.kind op).name.isCommutative key key') (hk : KeyFits P op a b key)
    (hk' : KeyFits P other a' b' key') (ha : HasType (some t) a.payload?)
    (hb : HasType (some t) b.payload?) (ha' : HasType (some t) a'.payload?)
    (hb' : HasType (some t) b'.payload?) :
    ofArith (P.kind op).name a.payload? b.payload? =
      ofArith (P.kind other).name a'.payload? b'.payload? := by
  cases key <;> cases key' <;> try exact h.elim
  · rw [hk.2, hk'.2]
  · obtain ⟨z, hz, hzero, hfactor⟩ := product_zero hk.2
    obtain ⟨z', hz', hzero', hfactor'⟩ := product_zero hk'.2
    have hzt : HasType (some t) (some z) := hfactor.elim (fun h => h ▸ ha) fun h => h ▸ hb
    have hzt' : HasType (some t) (some z') := hfactor'.elim (fun h => h ▸ ha') fun h => h ▸ hb'
    rw [hk'.1, hk.1]
    exact hz.trans ((congrArg some (eq_of_isZero hzt hzt' hzero hzero')).trans hz'.symm)
  · obtain ⟨rfl, rfl⟩ := hk
    obtain ⟨rfl, rfl⟩ := hk'
    rw [← hname]
    simp only [Answer.payload?_known] at *
    rcases h with ⟨h₁, h₂⟩ | ⟨hc, h₁, h₂⟩
    · rw [h₁, h₂]
    · rw [h₁, h₂, ofArith_comm hc hb' ha']

/-! ## The methods under a script -/

/-- The left operand decides, so the right one is not asked for. -/
def leftDecides (product : Bool) : Answer APInt → Bool
  | .signal _ => true
  | .completed x => product && isZero (.completed x) || x.isNone && !product

/-- The signal a method ends with, if the operands are `a` and `b`. -/
def firstSignal (product : Bool) : Answer APInt → Answer APInt → Option Signal
  | .signal st, _ => some st
  | .completed x, .signal st => if leftDecides product (.completed x) then none else some st
  | .completed _, .completed _ => none

/-- The state after the operands were asked for. -/
def afterOperands (script : Script Op Blk APInt) (s : ScriptState Op Blk APInt) (product : Bool)
    (l r : Value Op Blk) : ScriptState Op Blk APInt :=
  if leftDecides product (script.answer s.bindings l) then s.record (.query l)
  else (s.record (.query l)).record (.query r)

theorem script_answer_record (e : ScopeEvent Op Blk APInt) (v : Value Op Blk) :
    script.answer (s.record e).bindings v = script.answer s.bindings v := rfl

/-- What an answer says, without its address. -/
def Answer.content : Answer APInt → EvalResult (Option APInt)
  | .signal st => .signal st
  | .completed x => .completed (x.map EvalValue.payload)

/-- How a method ends: with `first`, or with something that satisfies `F`. -/
def EndsWith {α : Type} (first : Option Signal) (F : α → Prop) : EvalResult α → Prop
  | .signal st => first = some st
  | .completed x => first = none ∧ F x

section Methods

variable {op : Op} {l r : Value Op Blk} {a b : Answer APInt}

theorem firstSignal_of_leftDecides {product : Bool} {x : Option (EvalValue APInt)}
    (h : leftDecides product (.completed x) = true) :
    firstSignal product (.completed x) b = none := by
  cases b with
  | completed y => rfl
  | signal st => rw [firstSignal, if_pos h]

theorem isZero_eq (a : Answer APInt) : isZero a = Reference.isZero a.payload? := by
  rcases a with (_ | v) | st <;> rfl

/-- Known operands make the result known. -/
theorem ofArith_known {op : Op} (harith : P.isArith op = true) (x y : APInt) :
    ∃ z, ofArith (P.kind op).name (some x) (some y) = some z := by
  cases hk : P.kind op with
  | addi _ => exact ⟨_, rfl⟩
  | subi _ => exact ⟨_, rfl⟩
  | muli _ =>
    cases hx : x.isZero with
    | true => exact ⟨x, by simp [OpKind.name, ofArith, product, Reference.isZero, hx]⟩
    | false =>
      cases hy : y.isZero with
      | true => exact ⟨y, by simp [OpKind.name, ofArith, product, Reference.isZero, hx, hy]⟩
      | false =>
        exact ⟨x.mul y, by simp [OpKind.name, ofArith, product, both, Reference.isZero, hx, hy]⟩
  | _ => simp [Program.isArith, hk] at harith

/-- An unknown operand makes the result unknown, unless the other one is a zero factor. -/
theorem ofArith_unknown {name : OpName} {x y : Option APInt}
    (hzero : name = .muli → Reference.isZero x = false ∧ Reference.isZero y = false)
    (h : x = none ∨ y = none) : ofArith name x y = none := by
  have hboth : ∀ fn, both fn x y = none := by
    intro fn
    rcases h with rfl | rfl
    · rfl
    · cases x <;> rfl
  cases name with
  | addi => exact hboth _
  | subi => exact hboth _
  | muli =>
    obtain ⟨hx, hy⟩ := hzero rfl
    rw [ofArith, product, hx, hy]
    exact hboth _
  | _ => rfl

/-- `getKey` ends with the first signal or with a key that fits. -/
theorem wp_script_getKey (ho : P.operands op = [l, r]) (ha : script.answer s.bindings l = a)
    (hb : script.answer s.bindings r = b) :
    script.logic.wp (getKey P op) s fun key t => t = afterOperands script s (isProduct P op) l r ∧
      EndsWith (firstSignal (isProduct P op) a b) (KeyFits P op a b) key := by
  rw [getKey, ho, afterOperands]
  refine script.wp_query s ?_
  rw [ha]
  rcases a with lhs | st
  · simp only
    have hdecides : leftDecides (isProduct P op) (.completed lhs) =
        (isProduct P op && isZero (.completed lhs) || lhs.isNone && !isProduct P op) := rfl
    split
    · next hz =>
      rw [hz, Bool.true_or] at hdecides
      rw [Bool.and_eq_true] at hz
      exact script.logic.wp_pure ⟨by rw [if_pos hdecides], firstSignal_of_leftDecides hdecides,
        of_decide_eq_true hz.1, Or.inl (isZero_eq _ ▸ hz.2)⟩
    · next hz =>
      split
      · next hunknown =>
        rw [hunknown, Bool.or_true] at hdecides
        obtain ⟨hnone, hproduct⟩ := Bool.and_eq_true_iff.mp hunknown
        obtain rfl := Option.isNone_iff_eq_none.mp hnone
        refine script.logic.wp_pure ⟨by rw [if_pos hdecides], firstSignal_of_leftDecides hdecides,
          rfl, ofArith_unknown (fun hmul => ?_) (Or.inl rfl)⟩
        simp [isProduct, hmul] at hproduct
      · next hknown =>
        rw [Bool.eq_false_iff.mpr hz, Bool.eq_false_iff.mpr hknown, Bool.or_false] at hdecides
        rw [hdecides]
        refine script.wp_query _ ?_
        rw [script_answer_record, hb]
        rcases b with rhs | st
        · simp only
          split
          · next hz' =>
            rw [Bool.and_eq_true] at hz'
            exact script.logic.wp_pure ⟨rfl, rfl, of_decide_eq_true hz'.1,
              Or.inr (isZero_eq _ ▸ hz'.2)⟩
          · next hz' =>
            have hzero : (P.kind op).name = .muli →
                Reference.isZero (Answer.payload? (.completed lhs)) = false ∧
                  Reference.isZero (Answer.payload? (.completed rhs)) = false := by
              intro hmul
              rw [← isZero_eq, ← isZero_eq]
              simpa [isProduct, hmul] using And.intro hz hz'
            cases lhs with
            | none =>
              cases rhs <;> exact script.logic.wp_pure
                ⟨rfl, rfl, rfl, ofArith_unknown hzero (Or.inl rfl)⟩
            | some lhs =>
              cases rhs with
              | none =>
                exact script.logic.wp_pure ⟨rfl, rfl, rfl, ofArith_unknown hzero (Or.inr rfl)⟩
              | some rhs => exact script.logic.wp_pure ⟨rfl, rfl, rfl, rfl⟩
        · refine script.logic.wp_pure ⟨rfl, ?_⟩
          rw [EndsWith, firstSignal, hdecides, if_neg (by simp)]
  · exact script.logic.wp_pure ⟨rfl, rfl⟩

/-- The methods ask the same, and then return what `ofArith` computes. -/
def Evaluates (P : Program Op Blk) (op : Op) (a b : Answer APInt) (u : ScriptState Op Blk APInt)
    (results : List (Answer APInt)) (t : ScriptState Op Blk APInt) : Prop :=
  (t = u ∨ ∃ payload, t = u.record (.allocate payload)) ∧ ∃ answer, results = [answer] ∧
    EndsWith (firstSignal (isProduct P op) a b)
      (fun x => x = ofArith (P.kind op).name a.payload? b.payload?) (Answer.content answer)

theorem wp_script_evaluateKnown (ho : P.operands op = [l, r]) {fn : APInt → APInt → APInt}
    (hproduct : isProduct P op = false) (hfn : ofArith (P.kind op).name = both fn)
    (ha : script.answer s.bindings l = a) (hb : script.answer s.bindings r = b) :
    script.logic.wp (evaluateKnown P fn op) s
      (Evaluates P op a b (afterOperands script s (isProduct P op) l r)) := by
  rw [evaluateKnown, ho, afterOperands, hproduct]
  refine script.wp_query s ?_
  rw [ha]
  rcases a with (_ | lhs) | st
  · refine script.logic.wp_pure ⟨Or.inl rfl, _, rfl, ?_, ?_⟩
    · rw [hproduct]
      exact firstSignal_of_leftDecides rfl
    · rw [hfn]
      rfl
  · refine script.wp_query _ ?_
    rw [script_answer_record, hb]
    rcases b with (_ | rhs) | st
    · refine script.logic.wp_pure ⟨Or.inl rfl, _, rfl, rfl, ?_⟩
      rw [hfn]
      rfl
    · refine script.wp_allocate _ (script.logic.wp_pure ⟨Or.inr ⟨_, rfl⟩, _, rfl, rfl, ?_⟩)
      rw [hfn]
      rfl
    · refine script.logic.wp_pure ⟨Or.inl rfl, _, rfl, ?_⟩
      rw [hproduct]
      rfl
  · exact script.logic.wp_pure ⟨Or.inl rfl, _, rfl, rfl⟩

theorem wp_script_evaluateMul (ho : P.operands op = [l, r]) (hmul : (P.kind op).name = .muli)
    (ha : script.answer s.bindings l = a) (hb : script.answer s.bindings r = b) :
    script.logic.wp (evaluateMul P op) s
      (Evaluates P op a b (afterOperands script s (isProduct P op) l r)) := by
  have hproduct : isProduct P op = true := by simp [isProduct, hmul]
  rw [evaluateMul, ho, afterOperands, hproduct]
  refine script.wp_query s ?_
  rw [ha]
  rcases a with lhs | st
  · simp only
    have hdecides : leftDecides true (.completed lhs) = isZero (.completed lhs) := by
      simp [leftDecides]
    split
    · next hz =>
      rw [hz] at hdecides
      refine script.logic.wp_pure ⟨by rw [if_pos hdecides]; exact Or.inl rfl, _, rfl, ?_, ?_⟩
      · rw [hproduct]
        exact firstSignal_of_leftDecides hdecides
      · rw [isZero_eq] at hz
        rw [hmul, ofArith, product, if_pos hz]
        rfl
    · next hz =>
      rw [Bool.eq_false_iff.mpr hz] at hdecides
      rw [hdecides]
      refine script.wp_query _ ?_
      rw [script_answer_record, hb]
      rcases b with rhs | st
      · rw [isZero_eq] at hz
        simp only
        split
        · next hz' =>
          refine script.logic.wp_pure ⟨Or.inl rfl, _, rfl, rfl, ?_⟩
          rw [isZero_eq] at hz'
          rw [hmul, ofArith, product, if_neg hz, if_pos hz']
          rfl
        · next hz' =>
          rw [isZero_eq] at hz'
          have hvalue : ofArith (P.kind op).name (Answer.payload? (.completed lhs))
              (Answer.payload? (.completed rhs)) = both APInt.mul
                (Answer.payload? (.completed lhs)) (Answer.payload? (.completed rhs)) := by
            rw [hmul, ofArith, product, if_neg hz, if_neg hz']
          cases lhs with
          | none =>
            cases rhs <;> exact script.logic.wp_pure ⟨Or.inl rfl, _, rfl, rfl, hvalue.symm⟩
          | some lhs =>
            cases rhs with
            | none => exact script.logic.wp_pure ⟨Or.inl rfl, _, rfl, rfl, hvalue.symm⟩
            | some rhs =>
              exact script.wp_allocate _
                (script.logic.wp_pure ⟨Or.inr ⟨_, rfl⟩, _, rfl, rfl, hvalue.symm⟩)
      · refine script.logic.wp_pure ⟨Or.inl rfl, _, rfl, ?_⟩
        change firstSignal _ _ _ = some st
        rw [hproduct, firstSignal, hdecides, if_neg (by simp)]
  · exact script.logic.wp_pure ⟨Or.inl rfl, _, rfl, rfl⟩

section

variable [DecidableEq Op] [DecidableEq Blk]

/-- The registered model of an `arith` operation. -/
theorem shipped_arith {σ : Type} [Fintype Op] (harith : P.isArith op = true)
    {m : OpModel Op Blk σ APInt} (hm : (shippedModels P H).op op = some m) :
    ∃ evaluate, m = binaryOpEval P H op evaluate ∧
      ((P.kind op).name = .muli ∧ evaluate = evaluateMul P op ∨
        isProduct P op = false ∧ ∃ fn, ofArith (P.kind op).name = both fn ∧
          evaluate = evaluateKnown P fn op) := by
  rw [shippedModels] at hm
  cases hk : P.kind op with
  | addi _ =>
    obtain rfl : addIOpEval P H op = m := by simpa [hk] using hm
    exact ⟨_, rfl, Or.inr ⟨by simp [isProduct, hk, OpKind.name], _, rfl, rfl⟩⟩
  | subi _ =>
    obtain rfl : subIOpEval P H op = m := by simpa [hk] using hm
    exact ⟨_, rfl, Or.inr ⟨by simp [isProduct, hk, OpKind.name], _, rfl, rfl⟩⟩
  | muli _ =>
    obtain rfl : mulIOpEval P H op = m := by simpa [hk] using hm
    exact ⟨_, rfl, Or.inl ⟨rfl, rfl⟩⟩
  | _ => simp [Program.isArith, hk] at harith

theorem wp_script_evaluate [Fintype Op] (harith : P.isArith op = true)
    {m : OpModel Op Blk Unit APInt} (hm : (shippedModels P H).op op = some m)
    (ho : P.operands op = [l, r]) :
    script.logic.wp m.evaluate s (Evaluates P op (script.answer s.bindings l)
      (script.answer s.bindings r) (afterOperands script s (isProduct P op) l r)) := by
  obtain ⟨evaluate, rfl, ⟨hmul, rfl⟩ | ⟨hproduct, fn, hfn, rfl⟩⟩ := shipped_arith harith hm
  · exact wp_script_evaluateMul ho hmul rfl rfl
  · exact wp_script_evaluateKnown ho hproduct hfn rfl rfl

end

/-- A key depends on the bindings only. -/
theorem run_getKey_congr {t : ScriptState Op Blk APInt} (h : s.bindings = t.bindings) :
    (script.run (getKey P op) s).1 = (script.run (getKey P op) t).1 := by
  rw [getKey]
  split
  · next l r _ =>
    rw [Script.run_bind, Script.run_bind, Script.run_query, Script.run_query, h]
    cases script.answer t.bindings l with
    | signal st => rfl
    | completed lhs =>
      simp only
      split
      · rfl
      · split
        · rfl
        · rw [Script.run_bind, Script.run_bind, Script.run_query, Script.run_query,
            script_answer_record, script_answer_record, h]
          cases script.answer t.bindings r with
          | signal st => rfl
          | completed rhs =>
            simp only
            split
            · rfl
            · cases lhs <;> cases rhs <;> rfl
  · rfl

theorem run_getKey_bindings (ho : P.operands op = [l, r]) :
    (script.run (getKey P op) s).2.bindings = s.bindings := by
  have h : script.logic.wp (getKey P op) s _ := wp_script_getKey ho rfl rfl
  have hstate : (script.run (getKey P op) s).2 = _ := h.1
  rw [hstate, afterOperands]
  split <;> rfl

variable [DecidableEq Op]

/-- The comparison of keys is a comparison of contents. -/
theorem equalKeys_iff (hstored : script.Stored) {other : Op} {l' r' : Value Op Blk}
    {key key' : BinaryKey Op}
    (hk : KeyFits P op (script.answer s.bindings l) (script.answer s.bindings r) key)
    (hk' : KeyFits P other (script.answer s.bindings l') (script.answer s.bindings r') key')
    (commutative : Bool) :
    equalKeys commutative key key' = true ↔ SameKey commutative key key' := by
  have same : ∀ {v w : Value Op Blk} {x y : EvalValue APInt},
      script.answer s.bindings v = .known x →
      script.answer s.bindings w = .known y → (x.isEqual y = true ↔ x.payload = y.payload) := by
    intro v w x y hx hy
    rw [EvalValue.isEqual_iff]
    exact ⟨fun h => h.elim (hstored _ _ v w x y hx hy) id, Or.inr⟩
  cases key with
  | identity o => cases key' <;> simp [equalKeys, SameKey]
  | zeroProduct => cases key' <;> simp [equalKeys, SameKey]
  | operands lhs rhs =>
    cases key' with
    | identity o => simp [equalKeys, SameKey]
    | zeroProduct => simp [equalKeys, SameKey]
    | operands lhs' rhs' =>
      simp only [equalKeys, SameKey, Bool.or_eq_true, Bool.and_eq_true, same hk.1 hk'.1,
        same hk.2 hk'.2, same hk.1 hk'.2, same hk.2 hk'.1]

/-- `isEquivalentTo` completes with `true` if the operations have the same head and equal keys. -/
theorem run_isEquivalentTo_iff (hstored : script.Stored) {other : Op} {l' r' : Value Op Blk}
    (ho : P.operands op = [l, r]) (ho' : P.operands other = [l', r']) :
    (script.run (isEquivalentTo P op other) s).1 = .completed true ↔
      SameHead P op other ∧ ∃ key key', (script.run (getKey P op) s).1 = .completed key ∧
        (script.run (getKey P other) s).1 = .completed key' ∧
        SameKey (P.kind op).name.isCommutative key key' := by
  have spec : script.logic.wp (getKey P op) s _ := wp_script_getKey ho rfl rfl
  have spec' : script.logic.wp (getKey P other) s _ := wp_script_getKey ho' rfl rfl
  have hk : EndsWith _ _ (script.run (getKey P op) s).1 := spec.2
  have hk' : EndsWith _ _ (script.run (getKey P other) s).1 := spec'.2
  have hsame : (script.run (getKey P other) (script.run (getKey P op) s).2).1 =
      (script.run (getKey P other) s).1 := run_getKey_congr (run_getKey_bindings ho)
  rw [isEquivalentTo]
  split
  · next hhead =>
    refine ⟨by simp, fun h => ?_⟩
    obtain ⟨h₁, h₂, h₃⟩ := h.1
    simp [h₁, h₂, h₃] at hhead
  · next hhead =>
    push Not at hhead
    rw [Script.run_bind]
    rcases hkey : (script.run (getKey P op) s).1 with key | st
    · rw [Script.run_bind, hsame]
      rcases hkey' : (script.run (getKey P other) s).1 with key' | st
      · rw [hkey] at hk
        rw [hkey'] at hk'
        have hiff := equalKeys_iff hstored hk.2 hk'.2 (P.kind op).name.isCommutative
        constructor
        · intro h
          exact ⟨hhead, key, key', rfl, rfl, hiff.mp (EvalResult.completed.inj h)⟩
        · rintro ⟨-, _, _, ⟨⟩, ⟨⟩, h⟩
          exact congrArg EvalResult.completed (hiff.mpr h)
      · exact ⟨fun h => by simp at h, by rintro ⟨-, _, _, -, ⟨⟩, -⟩⟩
    · exact ⟨fun h => by simp at h, by rintro ⟨-, _, _, ⟨⟩, -⟩⟩

end Methods

/-! ## The key is exact -/

/-- Known answers have the width of their type. -/
def Typed (P : Program Op Blk) (script : Script Op Blk APInt) : Prop :=
  ∀ bindings v, HasType (P.valueType v) (script.answer bindings v).payload?

/-- An operation whose key completes under a script. -/
abbrev Keyed (P : Program Op Blk) (script : Script Op Blk APInt) (s : ScriptState Op Blk APInt) :=
  {op : Op // P.isArith op = true ∧ ∃ key, (script.run (getKey P op) s).1 = .completed key}

variable [Fintype Op] [DecidableEq Op] [DecidableEq Blk]

/-- The key and the evaluation of one operation agree on signals, on what they ask and on what is
unknown. -/
theorem getKey_evaluate (hP : P.Verified) {op : Op} {m : OpModel Op Blk Unit APInt}
    (harith : P.isArith op = true) (hm : (shippedModels P H).op op = some m) :
    ∃ answer, (script.run m.evaluate s).1 = [answer] ∧
      (∀ st, (script.run (getKey P op) s).1 = .signal st ↔ answer = .signal st) ∧
      ∀ key, (script.run (getKey P op) s).1 = .completed key →
        (∀ v, .query v ∈ (script.run m.evaluate s).2.events →
          .query v ∈ (script.run (getKey P op) s).2.events) ∧
        (answer = .unknown ↔ key = .identity op) := by
  obtain ⟨l, r, t, hshape⟩ := hP.arith op harith
  have ho := hshape.operands
  have spec : script.logic.wp (getKey P op) s _ := wp_script_getKey ho rfl rfl
  obtain ⟨hasked, hkey⟩ : (script.run (getKey P op) s).2 = _ ∧
      EndsWith _ _ (script.run (getKey P op) s).1 := spec
  have spec' : script.logic.wp m.evaluate s _ := wp_script_evaluate harith hm ho
  obtain ⟨hdone, answer, hanswer, hvalue⟩ :
    Evaluates P op _ _ _ (script.run m.evaluate s).1 (script.run m.evaluate s).2 := spec'
  refine ⟨answer, hanswer, fun st => ?_, fun key hcompletes => ⟨fun v hv => ?_, ?_⟩⟩
  · -- Both end with the first signal.
    have signals : ∀ {α : Type} {F : α → Prop} {first : Option Signal} {result : EvalResult α},
        EndsWith first F result → (result = .signal st ↔ first = some st) := by
      intro α F first result h
      cases result with
      | signal st' => rw [show first = some st' from h, EvalResult.signal.injEq, Option.some.injEq]
      | completed x => simp [h.1]
    have hcontent : Answer.content answer = .signal st ↔ answer = .signal st := by
      cases answer <;> simp [Answer.content]
    rw [signals hkey, ← signals hvalue, hcontent]
  · rw [hasked]
    rcases hdone with hdone | ⟨payload, hdone⟩
    · rwa [hdone] at hv
    · rw [hdone, ScriptState.record, List.mem_append] at hv
      exact hv.resolve_right (by simp)
  · rw [hcompletes] at hkey
    obtain ⟨hfirst, hfits⟩ := hkey
    rw [hfirst] at hvalue
    cases answer with
    | signal st => exact absurd (show none = some st from hvalue) (by simp)
    | completed x =>
      have hx : x.map EvalValue.payload = ofArith _ _ _ := hvalue.2
      rw [EvalResult.completed.injEq, ← Option.map_eq_none_iff (f := EvalValue.payload), hx]
      cases key with
      | identity o => exact ⟨fun _ => by rw [hfits.1], fun _ => hfits.2⟩
      | zeroProduct =>
        obtain ⟨z, hz, -⟩ := product_zero hfits.2
        rw [hfits.1]
        simp [ofArith, hz]
      | operands lhs rhs =>
        rw [hfits.1, hfits.2]
        obtain ⟨z, hz⟩ := ofArith_known harith lhs.payload rhs.payload
        simp [hz]

omit [DecidableEq Op] [DecidableEq Blk] [Fintype Op] in
theorem run_getHash {op : Op} {key : BinaryKey Op}
    (h : (script.run (getKey P op) s).1 = .completed key) :
    (script.run (getHash P H op) s).1 = .completed (hashKey P H op key) := by
  rw [getHash, Script.run_bind, h]
  rfl

/-- What a keyed operation evaluates to. -/
theorem run_evaluate {op : Op} {l r : Value Op Blk} {m : OpModel Op Blk Unit APInt}
    {key : BinaryKey Op} (harith : P.isArith op = true) (hm : (shippedModels P H).op op = some m)
    (ho : P.operands op = [l, r]) (hkey : (script.run (getKey P op) s).1 = .completed key) :
    KeyFits P op (script.answer s.bindings l) (script.answer s.bindings r) key ∧
      (script.run m.evaluate s).1.map Answer.content = [.completed (ofArith (P.kind op).name
        (script.answer s.bindings l).payload? (script.answer s.bindings r).payload?)] := by
  have spec : script.logic.wp (getKey P op) s _ := wp_script_getKey ho rfl rfl
  have hends : EndsWith _ _ (script.run (getKey P op) s).1 := spec.2
  rw [hkey] at hends
  have spec' : script.logic.wp m.evaluate s _ := wp_script_evaluate harith hm ho
  obtain ⟨-, answer, hanswer, hvalue⟩ :
    Evaluates P op _ _ _ (script.run m.evaluate s).1 (script.run m.evaluate s).2 := spec'
  refine ⟨hends.2, ?_⟩
  rw [hends.1] at hvalue
  rw [hanswer]
  cases hcontent : Answer.content answer with
  | signal st =>
    rw [hcontent] at hvalue
    exact absurd (show none = some st from hvalue) (by simp)
  | completed x =>
    rw [hcontent] at hvalue
    rw [List.map_singleton, hcontent, ← hvalue.2]

/-- Operations with equal keys have equal hashes and equal results. -/
theorem equal_of_isEquivalentTo (hP : P.Verified) (htyped : Typed P script)
    (hstored : script.Stored) {op other : Op} {m m' : OpModel Op Blk Unit APInt}
    (harith : P.isArith op = true) (harith' : P.isArith other = true)
    (hm : (shippedModels P H).op op = some m) (hm' : (shippedModels P H).op other = some m')
    (h : (script.run (m.isEquivalentTo other) s).1 = .completed true) :
    (∃ hash, (script.run m.getHash s).1 = .completed hash ∧
        (script.run m'.getHash s).1 = .completed hash) ∧
      (script.run m.evaluate s).1.map Answer.content =
        (script.run m'.evaluate s).1.map Answer.content := by
  obtain ⟨l, r, t, hshape⟩ := hP.arith op harith
  obtain ⟨l', r', t', hshape'⟩ := hP.arith other harith'
  obtain ⟨evaluate, rfl, -⟩ := shipped_arith harith hm
  obtain ⟨evaluate', rfl, -⟩ := shipped_arith harith' hm'
  obtain ⟨hhead, key, key', hkey, hkey', hsame⟩ :=
    (run_isEquivalentTo_iff hstored hshape.operands hshape'.operands).mp h
  obtain ⟨hfits, hvalue⟩ := run_evaluate harith hm hshape.operands hkey
  obtain ⟨hfits', hvalue'⟩ := run_evaluate harith' hm' hshape'.operands hkey'
  refine ⟨⟨_, run_getHash hkey, ?_⟩, ?_⟩
  · rw [SameKey.hashKey_eq hhead hsame]
    exact run_getHash hkey'
  · obtain rfl : t = t' := by simpa [hshape.results, hshape'.results] using hhead.2.1
    rw [hvalue, hvalue', SameKey.ofArith_eq hhead.1 hsame hfits hfits'
      (hshape.lhsType ▸ htyped _ l) (hshape.rhsType ▸ htyped _ r) (hshape'.lhsType ▸ htyped _ l')
      (hshape'.rhsType ▸ htyped _ r')]

omit [DecidableEq Blk] [Fintype Op] in
theorem isEquivalentTo_iff (hP : P.Verified) (hstored : script.Stored) {op other : Op}
    (harith : P.isArith op = true) (harith' : P.isArith other = true) :
    (script.run (isEquivalentTo P op other) s).1 = .completed true ↔
      SameHead P op other ∧ ∃ key key', (script.run (getKey P op) s).1 = .completed key ∧
        (script.run (getKey P other) s).1 = .completed key' ∧
        SameKey (P.kind op).name.isCommutative key key' := by
  obtain ⟨l, r, t, hshape⟩ := hP.arith op harith
  obtain ⟨l', r', t', hshape'⟩ := hP.arith other harith'
  exact run_isEquivalentTo_iff hstored hshape.operands hshape'.operands

/-- **The key of an `arith` operation is exact for its evaluation.**  Under every assignment of
answers, the key signals when the evaluation does and completes with the identity when the
evaluation is unknown, having asked for everything the evaluation asks for.  Equality of keys is an
equivalence relation, and operations with equal keys have equal hashes and equal answers. -/
theorem key_exact (hP : P.Verified) (htyped : Typed P script) (hstored : script.Stored)
    (s : ScriptState Op Blk APInt) :
    (∀ op m, P.isArith op = true → (shippedModels P H).op op = some m →
      ∃ answer, (script.run m.evaluate s).1 = [answer] ∧
        (∀ st, (script.run (getKey P op) s).1 = .signal st ↔ answer = .signal st) ∧
        ∀ key, (script.run (getKey P op) s).1 = .completed key →
          (∀ v, .query v ∈ (script.run m.evaluate s).2.events →
            .query v ∈ (script.run (getKey P op) s).2.events) ∧
          (answer = .unknown ↔ key = .identity op)) ∧
    Equivalence (fun x y : Keyed P script s =>
      (script.run (isEquivalentTo P x.1 y.1) s).1 = .completed true) ∧
    (∀ op other m m', P.isArith op = true → P.isArith other = true →
      (shippedModels P H).op op = some m → (shippedModels P H).op other = some m' →
      (script.run (m.isEquivalentTo other) s).1 = .completed true →
      (∃ hash, (script.run m.getHash s).1 = .completed hash ∧
          (script.run m'.getHash s).1 = .completed hash) ∧
        (script.run m.evaluate s).1.map Answer.content =
          (script.run m'.evaluate s).1.map Answer.content) := by
  refine ⟨fun op m harith hm => getKey_evaluate hP harith hm, ⟨?_, ?_, ?_⟩,
    fun op other m m' harith harith' hm hm' h =>
      equal_of_isEquivalentTo hP htyped hstored harith harith' hm hm' h⟩
  · rintro ⟨op, harith, key, hkey⟩
    rw [isEquivalentTo_iff hP hstored harith harith]
    exact ⟨⟨rfl, rfl, rfl⟩, key, key, hkey, hkey, .refl _ _⟩
  · rintro ⟨op, harith, _⟩ ⟨other, harith', _⟩ h
    rw [isEquivalentTo_iff hP hstored harith harith'] at h
    rw [isEquivalentTo_iff hP hstored harith' harith]
    obtain ⟨⟨hname, htypes, hflags⟩, key, key', hkey, hkey', hsame⟩ := h
    exact ⟨⟨hname.symm, htypes.symm, hflags.symm⟩, key', key, hkey', hkey, hname ▸ hsame.symm⟩
  · rintro ⟨op₁, h₁, _⟩ ⟨op₂, h₂, _⟩ ⟨op₃, h₃, _⟩ h h'
    rw [isEquivalentTo_iff hP hstored h₁ h₂] at h
    rw [isEquivalentTo_iff hP hstored h₂ h₃] at h'
    rw [isEquivalentTo_iff hP hstored h₁ h₃]
    obtain ⟨⟨hname, htypes, hflags⟩, key₁, key₂, hkey₁, hkey₂, hsame⟩ := h
    obtain ⟨⟨hname', htypes', hflags'⟩, key₂', key₃, hkey₂', hkey₃, hsame'⟩ := h'
    obtain rfl : key₂ = key₂' := EvalResult.completed.inj (hkey₂.symm.trans hkey₂')
    exact ⟨⟨hname.trans hname', htypes.trans htypes', hflags.trans hflags'⟩, key₁, key₃, hkey₁,
      hkey₃, hsame.trans (hname.symm ▸ hsame')⟩

/-- Every value of `sumProgram` is 5. -/
def fiveScript : Script (Fin 5) (Fin 1) APInt where
  answer _ v := match sumProgram.valueType v with
    | some .index => .known ⟨0, .cache, ⟨indexWidth, 5⟩⟩
    | _ => .unknown
  address _ := 1

theorem fiveScript_typed : Typed sumProgram fiveScript := by
  intro bindings v x hx
  simp only [fiveScript] at hx
  split at hx
  · next h =>
    obtain rfl := Option.some.inj hx
    rw [h]
    rfl
  · cases hx

theorem fiveScript_stored : fiveScript.Stored := by
  intro bindings bindings' v w a b ha hb _
  have five : ∀ bindings v x, fiveScript.answer bindings v = .known x →
      x.payload = ⟨indexWidth, 5⟩ := by
    intro bindings v x hx
    simp only [fiveScript] at hx
    split at hx
    · rw [← Option.some.inj (EvalResult.completed.inj hx)]
    · cases hx
  rw [five _ _ _ ha, five _ _ _ hb]

/-- The two sums of `sumProgram` hash equally. -/
theorem key_exact_sumProgram :
    ∃ hash, (fiveScript.run (getHash sumProgram .numbered 2) .empty).1 = .completed hash ∧
      (fiveScript.run (getHash sumProgram .numbered 3) .empty).1 = .completed hash :=
  ((key_exact sumProgram_verified fiveScript_typed fiveScript_stored .empty).2.2 2 3
    (addIOpEval sumProgram .numbered 2) (addIOpEval sumProgram .numbered 3) rfl rfl rfl rfl
    (by rfl)).1

end Arith

end MlirInterpreter
