import MlirInterpreter.Dialects.SCF
import MlirInterpreter.Engine.Renaming

/-!
# The shipped models are blind

The shipped models read the contents of values, and compare instances of integers only to find that
they are equal sooner.  So they do the same wherever the values live, and what `Engine.Replay` shows
holds of them, next to any other blind models.
-/

set_option autoImplicit false

namespace MlirInterpreter

variable {Op Blk σ π α β γ : Type}

/-! ## Comparisons -/

section Comparison

variable {P : Program Op Blk}
  {check : Value Op Blk → Value Op Blk → ScopeM Op Blk σ π (EvalResult Bool)} (m : Matching Op Blk)
  [DecidableEq Op] [DecidableEq Blk]

theorem steady_compareValues (hcheck : ∀ x y, Steady (check x y)) (x y : Value Op Blk) :
    Steady (m.compareValues P check x y) := by
  rw [Matching.compareValues]
  split
  · exact .pure _
  · exact hcheck x y

theorem steady_compareOperands (hcheck : ∀ x y, Steady (check x y)) (ls rs : List (Value Op Blk)) :
    Steady (m.compareOperands P check ls rs) := by
  induction ls generalizing rs with
  | nil => exact .pure _
  | cons l ls ih =>
    cases rs with
    | nil => exact .pure _
    | cons r rs =>
      refine (steady_compareValues m hcheck l r).bind ?_
      rintro ((_ | _) | status)
      · exact .pure _
      · exact ih rs
      · exact .pure _

theorem steady_takeFirst (hcheck : ∀ x y, Steady (check x y)) (l : Value Op Blk)
    (rs : List (Value Op Blk × Bool)) : Steady (m.takeFirst P check l rs) := by
  induction rs with
  | nil => exact .pure _
  | cons r rs ih =>
    obtain ⟨r, _ | _⟩ := r
    · refine (steady_compareValues m hcheck l r).bind ?_
      rintro ((_ | _) | status)
      · refine ih.bind ?_
        rintro ((_ | rs') | status) <;> exact .pure _
      · exact .pure _
      · exact .pure _
    · refine ih.bind ?_
      rintro ((_ | rs') | status) <;> exact .pure _

theorem steady_pairUp (hcheck : ∀ x y, Steady (check x y)) (ls : List (Value Op Blk))
    (rs : List (Value Op Blk × Bool)) : Steady (m.pairUp P check ls rs) := by
  induction ls generalizing rs with
  | nil => exact .pure _
  | cons l ls ih =>
    refine (steady_takeFirst m hcheck l rs).bind ?_
    rintro ((_ | rs') | status)
    · exact .pure _
    · exact ih rs'
    · exact .pure _

theorem steady_compareAll (hcheck : ∀ x y, Steady (check x y)) (ops : List (Op × Op)) :
    Steady (m.compareAll P check ops) := by
  induction ops with
  | nil => exact .pure _
  | cons p ops ih =>
    obtain ⟨l, r⟩ := p
    rw [Matching.compareAll]
    by_cases hc : (P.kind l).name.isCommutative = true
    · rw [if_pos hc]
      refine (steady_pairUp m hcheck _ _).bind ?_
      rintro ((_ | _) | status)
      · exact .pure _
      · exact ih
      · exact .pure _
    · rw [if_neg hc]
      refine (steady_compareOperands m hcheck _ _).bind ?_
      rintro ((_ | _) | status)
      · exact .pure _
      · exact ih
      · exact .pure _

/-- The comparison of operations sees values by its callback only. -/
theorem steady_isEquivalentTo [Fintype Op] (hcheck : ∀ x y, Steady (check x y)) (lhs rhs : Op) :
    Steady (isEquivalentTo P check lhs rhs) := by
  rw [isEquivalentTo]
  split
  · exact .pure _
  · rw [checkOperations]
    split
    · exact .pure _
    · next m _ =>
      split
      · exact steady_compareAll m hcheck _
      · exact .pure _

end Comparison

/-! ## The default cache key -/

section Defaults

variable (P : Program Op Blk) (H : HashFns Op Blk)

/-- Instances are equal in both contexts or in neither. -/
theorem Renaming.isEqual {L : Renaming APInt} {v w v' w' : EvalValue APInt} (h : L.rel v v')
    (h' : L.rel w w') : v'.isEqual w' = v.isEqual w := by
  rw [Bool.eq_iff_iff, EvalValue.isEqual_iff, EvalValue.isEqual_iff, L.payload h, L.payload h']
  exact or_congr_left (L.addr h h')

theorem steady_hashEvaluatedValue (v : Value Op Blk) :
    Steady (hashEvaluatedValue H v : ScopeM Op Blk σ APInt (EvalResult HashCode)) := by
  refine fun L => related_query fun L' a b _ hab => ?_
  cases hab with
  | signal status => exact .pure rfl
  | unknown => exact .pure rfl
  | known h => exact .pure (by rw [L'.payload h])

theorem steady_hashOperands (commutative : Bool) (l : List (Value Op Blk)) (hash sum : HashCode) :
    Steady (hashOperands H (hashEvaluatedValue H) commutative l hash sum :
      ScopeM Op Blk σ APInt _) := by
  induction l generalizing hash sum with
  | nil => exact .pure _
  | cons v l ih =>
    refine (steady_hashEvaluatedValue H v).bind ?_
    rintro (h | status)
    · cases commutative <;> exact ih _ _
    · exact .pure _

theorem steady_getDefaultHash (op : Op) :
    Steady (getDefaultHash P H op : ScopeM Op Blk σ APInt (EvalResult HashCode)) := by
  refine (steady_hashOperands H _ _ _ _).bind ?_
  rintro (_ | status) <;> exact .pure _

variable [DecidableEq Op] [DecidableEq Blk]

theorem steady_isEvaluatedValueEqual (x y : Value Op Blk) :
    Steady (isEvaluatedValueEqual x y : ScopeM Op Blk σ APInt (EvalResult Bool)) := by
  rw [isEvaluatedValueEqual]
  by_cases hxy : x = y
  · rw [if_pos hxy]
    exact .pure _
  · rw [if_neg hxy]
    refine fun L => related_query fun L₁ a b _ hab => ?_
    cases hab with
    | signal status => exact .pure rfl
    | unknown => exact .pure rfl
    | known h =>
      refine related_query fun L₂ a b hL hab => ?_
      cases hab with
      | signal status => exact .pure rfl
      | unknown => exact .pure rfl
      | known h' => exact .pure (by rw [Renaming.isEqual (hL _ _ h) h'])

theorem steady_isDefaultEquivalent [Fintype Op] (op other : Op) :
    Steady (isDefaultEquivalent P op other : ScopeM Op Blk σ APInt (EvalResult Bool)) :=
  steady_isEquivalentTo steady_isEvaluatedValueEqual op other

end Defaults

/-! ## The `arith` models -/

section Arith

open Arith

variable (P : Program Op Blk) (H : HashFns Op Blk)

/-- Corresponding keys. -/
inductive RelatedKeys (L : Renaming APInt) : BinaryKey Op → BinaryKey Op → Prop
  | identity (op : Op) : RelatedKeys L (.identity op) (.identity op)
  | zeroProduct : RelatedKeys L .zeroProduct .zeroProduct
  | operands {v w v' w' : EvalValue APInt} (h : L.rel v v') (h' : L.rel w w') :
    RelatedKeys L (.operands v w) (.operands v' w')

/-- Corresponding results, by what is completed. -/
inductive Renaming.Ends {π α β : Type} (Q : Renaming π → α → β → Prop) (L : Renaming π) :
    EvalResult α → EvalResult β → Prop
  | signal (status : Signal) : Ends Q L (.signal status) (.signal status)
  | completed {a : α} {b : β} (h : Q L a b) : Ends Q L (.completed a) (.completed b)

theorem Renaming.Answers.isZero {L : Renaming APInt} {a b : Answer APInt} (h : L.Answers a b) :
    Arith.isZero b = Arith.isZero a := by
  cases h with
  | signal status => rfl
  | unknown => rfl
  | known h => exact congrArg APInt.isZero (L.payload h)

theorem blind_getKey (op : Op) :
    BlindMethod (Renaming.Ends RelatedKeys)
      (getKey P op : ScopeM Op Blk σ APInt (EvalResult (BinaryKey Op))) := by
  intro L
  rw [getKey]
  split
  · refine related_query_cases (fun _ status => .pure (.signal status)) fun L₁ x y _ hxy => ?_
    have hnone : y.isNone = x.isNone := by
      rw [Bool.eq_iff_iff, Option.isNone_iff_eq_none, Option.isNone_iff_eq_none, hxy.eq_none_iff]
    simp only [(Renaming.Answers.of_value hxy).isZero, hnone]
    split
    · exact .pure (.completed .zeroProduct)
    · split
      · exact .pure (.completed (.identity op))
      · refine related_query_cases (fun _ status => .pure (.signal status))
          fun L₂ x' y' hL hxy' => ?_
        simp only [(Renaming.Answers.of_value hxy').isZero]
        split
        · exact .pure (.completed .zeroProduct)
        · cases hxy with
          | none => exact .pure (.completed (.identity op))
          | some h =>
            cases hxy' with
            | none => exact .pure (.completed (.identity op))
            | some h' => exact .pure (.completed (.operands (hL _ _ h) h'))
  · exact .pure (.completed (.identity op))

theorem RelatedKeys.mono {L L' : Renaming APInt} {k k' : BinaryKey Op} (h : RelatedKeys L k k')
    (hL : L ≤ L') : RelatedKeys L' k k' := by
  cases h with
  | identity op => exact .identity op
  | zeroProduct => exact .zeroProduct
  | operands h h' => exact .operands (hL _ _ h) (hL _ _ h')

theorem RelatedKeys.hashKey_eq {L : Renaming APInt} {k k' : BinaryKey Op}
    (h : RelatedKeys L k k') (op : Op) : hashKey P H op k' = hashKey P H op k := by
  cases h with
  | identity op => rfl
  | zeroProduct => rfl
  | operands h h' => simp only [hashKey, L.payload h, L.payload h']

section

variable [DecidableEq Op]

theorem RelatedKeys.equalKeys_eq {L : Renaming APInt} {k k' m m' : BinaryKey Op}
    (h : RelatedKeys L k k') (hm : RelatedKeys L m m') (commutative : Bool) :
    equalKeys commutative k' m' = equalKeys commutative k m := by
  cases h with
  | identity op => cases hm <;> rfl
  | zeroProduct => cases hm <;> rfl
  | operands h₁ h₂ =>
    cases hm with
    | identity op => rfl
    | zeroProduct => rfl
    | operands h₃ h₄ =>
      simp only [equalKeys, Renaming.isEqual h₁ h₃, Renaming.isEqual h₁ h₄,
        Renaming.isEqual h₂ h₃, Renaming.isEqual h₂ h₄]

omit [DecidableEq Op] in
theorem steady_arithHash (op : Op) :
    Steady (Arith.getHash P H op : ScopeM Op Blk σ APInt (EvalResult HashCode)) := by
  refine fun L => (blind_getKey P op L).bind fun L' x y _ hxy => ?_
  cases hxy with
  | signal status => exact .pure rfl
  | completed h => exact .pure (congrArg EvalResult.completed (h.hashKey_eq P H op))

theorem steady_arithEquivalent (op other : Op) :
    Steady (Arith.isEquivalentTo P op other : ScopeM Op Blk σ APInt (EvalResult Bool)) := by
  rw [Arith.isEquivalentTo]
  split
  · exact .pure _
  · refine fun L => (blind_getKey P op L).bind fun L₁ x y _ hxy => ?_
    cases hxy with
    | signal status => exact .pure rfl
    | completed h =>
      refine (blind_getKey P other L₁).bind fun L₂ x' y' hL hxy' => ?_
      cases hxy' with
      | signal status => exact .pure rfl
      | completed h' =>
        exact .pure (congrArg EvalResult.completed ((h.mono hL).equalKeys_eq h' _))

/-- One answer. -/
theorem Renaming.Results.one {L : Renaming APInt} {a b : Answer APInt} (h : L.Answers a b) :
    L.Results [a] [b] := .cons h .nil

end

theorem blind_evaluateKnown (fn : APInt → APInt → APInt) (op : Op) :
    BlindMethod Renaming.Results
      (evaluateKnown P fn op : ScopeM Op Blk σ APInt (List (Answer APInt))) := by
  intro L
  rw [evaluateKnown]
  split
  · refine related_query fun L₁ a b _ hab => ?_
    cases hab with
    | signal status => exact .pure (.one (.signal status))
    | unknown => exact .pure (.one .unknown)
    | known h =>
      refine related_query fun L₂ a b hL hab => ?_
      cases hab with
      | signal status => exact .pure (.one (.signal status))
      | unknown => exact .pure (.one .unknown)
      | known h' =>
        simp only [L₁.payload h, L₂.payload h']
        exact related_allocate fun L₃ v w _ hvw => .pure (.one (.known hvw))
  · exact .pure (.one .unknown)

theorem blind_evaluateMul (op : Op) :
    BlindMethod Renaming.Results
      (evaluateMul P op : ScopeM Op Blk σ APInt (List (Answer APInt))) := by
  intro L
  rw [evaluateMul]
  split
  · refine related_query_cases (fun _ status => .pure (.one (.signal status)))
      fun L₁ x y _ hxy => ?_
    have hab := Renaming.Answers.of_value hxy
    simp only [hab.isZero]
    split
    · exact .pure (.one hab)
    · refine related_query_cases (fun _ status => .pure (.one (.signal status)))
        fun L₂ x' y' hL hxy' => ?_
      have hab' := Renaming.Answers.of_value hxy'
      simp only [hab'.isZero]
      split
      · exact .pure (.one hab')
      · cases hxy with
        | none => exact .pure (.one .unknown)
        | some h =>
          cases hxy' with
          | none => exact .pure (.one .unknown)
          | some h' =>
            simp only [L₁.payload h, L₂.payload h']
            exact related_allocate fun L₃ v w _ hvw => .pure (.one (.known hvw))
  · exact .pure (.one .unknown)

end Arith

/-! ## The `scf.for` model -/

section SCF

open SCF

variable (P : Program Op Blk)

/-- Corresponding outcomes. -/
inductive Renaming.Outcomes {π ε α β : Type} (Q : Renaming π → α → β → Prop) (L : Renaming π) :
    Except ε α → Except ε β → Prop
  | error (e : ε) : Outcomes Q L (.error e) (.error e)
  | ok {a : α} {b : β} (h : Q L a b) : Outcomes Q L (.ok a) (.ok b)

/-- Corresponding values. -/
abbrev Renaming.Values {π : Type} (L : Renaming π) :
    List (EvalValue π) → List (EvalValue π) → Prop :=
  List.Forall₂ L.rel

theorem blind_queryKnown (values : List (Value Op Blk)) :
    BlindMethod (Renaming.Outcomes Renaming.Values)
      (queryKnown values : ScopeM Op Blk σ APInt (Except Exit (List (EvalValue APInt)))) := by
  induction values with
  | nil => exact fun _ => .pure (.ok .nil)
  | cons v values ih =>
    refine fun L => related_query fun L₁ a b _ hab => ?_
    cases hab with
    | signal status => exact .pure (.error _)
    | unknown => exact .pure (.error _)
    | known h =>
      refine (ih L₁).bind fun L₂ x y hL hxy => ?_
      cases hxy with
      | error exit => exact .pure (.error exit)
      | ok hrest => exact .pure (.ok (.cons (hL _ _ h) hrest))

theorem blind_queryYields (values : List (Value Op Blk)) :
    BlindMethod (Renaming.Outcomes Renaming.Results)
      (queryYields values : ScopeM Op Blk σ APInt (Except Signal (List (Answer APInt)))) := by
  induction values with
  | nil => exact fun _ => .pure (.ok .nil)
  | cons v values ih =>
    refine fun L => related_query_cases (fun _ _ => .pure (.error _)) fun L₁ x y _ hxy => ?_
    refine (ih L₁).bind fun L₂ x y hL hxy' => ?_
    cases hxy' with
    | error status => exact .pure (.error status)
    | ok hrest => exact .pure (.ok (.cons ((Renaming.Answers.of_value hxy).mono hL) hrest))

theorem Renaming.Results.every {L : Renaming APInt} (op : Op) {a b : Answer APInt}
    (h : L.Answers a b) : L.Results (everyResult P op a) (everyResult P op b) := .replicate h _

theorem blind_iterate (op : Op) (body : Blk) (isUnsigned : Bool) (ub step : APInt) (fuel : ℕ)
    (iv : APInt) {L : Renaming APInt} {carried carried' : List (Answer APInt)}
    (hc : L.Results carried carried') :
    RelatedScopes Renaming.Results L
      (iterate P op body isUnsigned ub step fuel iv carried : ScopeM Op Blk σ APInt _)
      (iterate P op body isUnsigned ub step fuel iv carried') := by
  induction fuel generalizing L iv carried carried' with
  | zero => exact .pure (.every P op .unknown)
  | succ fuel ih =>
    rw [iterate, iterate]
    split
    · refine related_declareCost fun L₁ charged hL₁ => ?_
      cases charged with
      | false => exact .pure (.every P op (.signal _))
      | true =>
        refine related_allocate fun L₂ v w hL₂ hvw => ?_
        have hargs : L₂.Results (.known v :: carried) (.known w :: carried') :=
          .cons (.known hvw) (Renaming.Results.mono hc (hL₁.trans hL₂))
        have hbody : RelatedScopes (Renaming.Outcomes Renaming.Results) L₂
            (EvalScope.withBinding body (.known v :: carried) (queryYields (P.yieldedValues body)) :
              ScopeM Op Blk σ APInt _)
            (EvalScope.withBinding body (.known w :: carried')
              (queryYields (P.yieldedValues body))) := by
          refine related_withBinding hargs (fun L L' x y hL hxy => ?_)
            fun L' _ => blind_queryYields _ L'
          cases hxy with
          | error status => exact .error status
          | ok h => exact .ok (Renaming.Results.mono h hL)
        refine hbody.bind fun L₃ x y _ hxy => ?_
        cases hxy with
        | error status => exact .pure (.every P op (.signal status))
        | ok h =>
          simp only
          split
          · exact .pure (.every P op .unknown)
          · exact ih _ h
    · exact .pure hc

theorem Renaming.Results.known {L : Renaming APInt} {vs ws : List (EvalValue APInt)}
    (h : L.Values vs ws) : L.Results (vs.map .known) (ws.map .known) := by
  induction h with
  | nil => exact .nil
  | cons h _ ih => exact .cons (.known h) ih

theorem blind_evaluateLoop (op : Op) (body : Blk) (isUnsigned : Bool) (lb ub step : Value Op Blk)
    (inits : List (Value Op Blk)) :
    BlindMethod Renaming.Results
      (evaluateLoop P op body isUnsigned lb ub step inits : ScopeM Op Blk σ APInt _) := by
  refine fun L => (blind_queryKnown [lb, ub, step] L).bind fun L₁ x y _ hxy => ?_
  rcases hxy with (status | _) | (_ | ⟨hl, _ | ⟨hu, _ | ⟨hs, _ | _⟩⟩⟩)
  · exact .pure (.every P op (.signal status))
  · exact .pure (.every P op .unknown)
  · exact .pure (.every P op .unknown)
  · exact .pure (.every P op .unknown)
  · exact .pure (.every P op .unknown)
  · refine (blind_queryKnown inits L₁).bind fun L₂ x y _ hxy => ?_
    rcases hxy with (status | _) | hc
    · exact .pure (.every P op (.signal status))
    · exact .pure (.every P op .unknown)
    · simp only [L₁.payload hl, L₁.payload hu, L₁.payload hs]
      split
      · exact .pure (.every P op .unknown)
      · exact related_withFreeze (fun _ _ _ _ hL h => Renaming.Results.mono h hL) fun L₃ hL =>
          blind_iterate P op body isUnsigned _ _ _ _ (Renaming.Results.mono (.known hc) hL)
  · exact .pure (.every P op .unknown)

theorem blind_evaluateFor (op : Op) (isUnsigned : Bool) :
    BlindMethod Renaming.Results
      (SCF.evaluate P op isUnsigned : ScopeM Op Blk σ APInt (List (Answer APInt))) := by
  rw [SCF.evaluate]
  split
  · exact blind_evaluateLoop P op _ isUnsigned _ _ _ _
  · exact fun _ => .pure (.every P op .unknown)

end SCF

/-! ## The models -/

variable [DecidableEq Op] [DecidableEq Blk]

/-- **The shipped models are blind.** -/
theorem shipped_blind [Fintype Op] (P : Program Op Blk) (H : HashFns Op Blk) (mem : Malloc) :
    (shipped P H mem : Setup Op Blk σ APInt).Blind := by
  intro op model hm
  simp only [shipped, shippedModels] at hm
  split at hm
  · obtain rfl := Option.some.inj hm
    exact ⟨.pure _, steady_arithHash P H op, steady_arithEquivalent P op,
      blind_evaluateKnown P _ op⟩
  · obtain rfl := Option.some.inj hm
    exact ⟨.pure _, steady_arithHash P H op, steady_arithEquivalent P op,
      blind_evaluateKnown P _ op⟩
  · obtain rfl := Option.some.inj hm
    exact ⟨.pure _, steady_arithHash P H op, steady_arithEquivalent P op, blind_evaluateMul P op⟩
  · next isUnsigned _ =>
    obtain rfl := Option.some.inj hm
    exact ⟨.pure _, steady_getDefaultHash P H op, steady_isDefaultEquivalent P op,
      blind_evaluateFor P op isUnsigned⟩
  · simp at hm

end MlirInterpreter
