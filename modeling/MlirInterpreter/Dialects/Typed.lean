import MlirInterpreter.Dialects.Confined
import MlirInterpreter.Engine.Typed
import MlirInterpreter.Reference.Properties

/-!
# The widths of the shipped models

A payload of the shipped models is the integer of an `IntEvalValue`, and of a value of type `iN` or
`index` it has the width of that type: `IntOfType`.  LLVM asserts that the operands of `+`, `-`,
`*`, `ult`, `slt`, `uadd_ov` and `sadd_ov` have equal widths.  The methods named with a question
mark are those of `ArithEval.cpp` and `SCFEval.cpp` with these assertions, and give up where one
fails.

`shipped_typed` says that the models of a verified program keep to the types, and `agree_evaluate`
that on answers of the right types no assertion fails.
-/

set_option autoImplicit false

namespace MlirInterpreter

variable {Op Blk σ π : Type}

/-- The integer has the width of the type. -/
def IntOfType (t : Option Ty) (value : APInt) : Prop := t.bind Ty.width? = some value.width

/-- An operation on two integers that asserts that their widths agree. -/
def APInt.asserted {α : Type} (fn : APInt → APInt → α) (a b : APInt) : Option α :=
  if a.width = b.width then some (fn a b) else none

theorem APInt.asserted_of_type {α : Type} (fn : APInt → APInt → α) {t : Option Ty} {a b : APInt}
    (ha : IntOfType t a) (hb : IntOfType t b) : APInt.asserted fn a b = some (fn a b) :=
  if_pos (Option.some.inj (ha.symm.trans hb))

/-! ## The methods with assertions -/

namespace Arith

variable (P : Program Op Blk)

/-- `evaluateKnown`, where `fn` asserts that the widths agree. -/
def evaluateKnown? (fn : APInt → APInt → APInt) (op : Op) :
    ScopeM Op Blk σ APInt (Option (List (Answer APInt))) := do
  match P.operands op with
  | [l, r] =>
    match ← EvalScope.query l with
    | .signal status => return some [.signal status]
    | .completed none => return some [.unknown]
    | .completed (some lhs) =>
      match ← EvalScope.query r with
      | .signal status => return some [.signal status]
      | .completed none => return some [.unknown]
      | .completed (some rhs) =>
        match APInt.asserted fn lhs.payload rhs.payload with
        | none => return none
        | some value => return some [.known (← EvalScope.allocate value)]
  | _ => return some [.unknown]

/-- `MulIOpEval::evaluate`, with the assertion of `*`. -/
def evaluateMul? (op : Op) : ScopeM Op Blk σ APInt (Option (List (Answer APInt))) := do
  match P.operands op with
  | [l, r] =>
    match ← EvalScope.query l with
    | .signal status => return some [.signal status]
    | .completed lhs =>
      if isZero (.completed lhs) then
        return some [.completed lhs]
      match ← EvalScope.query r with
      | .signal status => return some [.signal status]
      | .completed rhs =>
        if isZero (.completed rhs) then
          return some [.completed rhs]
        match lhs, rhs with
        | some lhs, some rhs =>
          match APInt.asserted APInt.mul lhs.payload rhs.payload with
          | none => return none
          | some value => return some [.known (← EvalScope.allocate value)]
        | _, _ => return some [.unknown]
  | _ => return some [.unknown]

end Arith

namespace SCF

variable (P : Program Op Blk)

/-- `iterate`, with the assertions of the comparison and of the addition. -/
def iterate? (op : Op) (body : Blk) (isUnsigned : Bool) (ub step : APInt) :
    (fuel : ℕ) → (iv : APInt) → (carried : List (Answer APInt)) →
      ScopeM Op Blk σ APInt (Option (List (Answer APInt)))
  | 0, _, _ => return some (everyResult P op .unknown)
  | fuel + 1, iv, carried => do
    match APInt.asserted (less isUnsigned) iv ub with
    | none => return none
    | some false => return some carried
    | some true =>
      if !(← EvalScope.declareCost) then
        return some (everyResult P op (.signal .exhausted))
      let induction ← EvalScope.allocate iv
      match ← EvalScope.withBinding body (.known induction :: carried)
          (queryYields (P.yieldedValues body)) with
      | .error status => return some (everyResult P op (.signal status))
      | .ok yielded =>
        match APInt.asserted (addOv isUnsigned) iv step with
        | none => return none
        | some (next, overflow) =>
          if overflow then
            return some (everyResult P op .unknown)
          iterate? op body isUnsigned ub step fuel next yielded

/-- `evaluateLoop`, with assertions. -/
def evaluateLoop? (op : Op) (body : Blk) (isUnsigned : Bool) (lb ub step : Value Op Blk)
    (inits : List (Value Op Blk)) : ScopeM Op Blk σ APInt (Option (List (Answer APInt))) := do
  match ← queryKnown [lb, ub, step] with
  | .ok [lb, ub, step] =>
    match ← queryKnown inits with
    | .ok carried =>
      if badStep isUnsigned step.payload then
        return some (everyResult P op .unknown)
      EvalScope.withFreeze
        (iterate? P op body isUnsigned ub.payload step.payload (2 ^ lb.payload.width) lb.payload
          (carried.map .known))
    | .error (.signal status) => return some (everyResult P op (.signal status))
    | .error .unknown => return some (everyResult P op .unknown)
  | .error (.signal status) => return some (everyResult P op (.signal status))
  | _ => return some (everyResult P op .unknown)

/-- `ForOpEval::evaluate`, with assertions. -/
def evaluate? (op : Op) (isUnsigned : Bool) :
    ScopeM Op Blk σ APInt (Option (List (Answer APInt))) :=
  match P.operands op, P.loopBody op with
  | lb :: ub :: step :: inits, some body => evaluateLoop? P op body isUnsigned lb ub step inits
  | _, _ => return some (everyResult P op .unknown)

end SCF

/-- `evaluate` of the model of `op`, with assertions. -/
def shippedEvaluate? (P : Program Op Blk) (op : Op) :
    ScopeM Op Blk σ APInt (Option (List (Answer APInt))) :=
  match P.kind op with
  | .addi _ => Arith.evaluateKnown? P APInt.add op
  | .subi _ => Arith.evaluateKnown? P APInt.sub op
  | .muli _ => Arith.evaluateMul? P op
  | .scfFor isUnsigned => SCF.evaluate? P op isUnsigned
  | _ => return some []

/-! ## Rules -/

section Rules

variable {P : Program Op Blk} {T : Option Ty → π → Prop}

theorem AnswersOf.nil (ts : List Ty) : AnswersOf T ts ([] : List (Answer π)) :=
  fun i a h => by simp at h

theorem AnswersOf.cons {t : Ty} {ts : List Ty} {a : Answer π} {l : List (Answer π)}
    (ha : a.OfType T (some t)) (hl : AnswersOf T ts l) : AnswersOf T (t :: ts) (a :: l) := by
  intro i b hb
  cases i with
  | zero => exact Option.some.inj hb ▸ ha
  | succ i => exact hl i b hb

theorem answersOf_singleton {ts : List Ty} {t : Ty} (h : ts = [t]) {a : Answer π}
    (ha : a.OfType T (some t)) : AnswersOf T ts [a] :=
  h ▸ .cons ha (.nil [])

/-- Answers without a value are of any types. -/
theorem answersOf_replicate (ts : List Ty) (n : ℕ) {a : Answer π} (ha : a.value? = none) :
    AnswersOf T ts (List.replicate n a) := by
  intro i b hb v hv
  obtain rfl := (List.mem_replicate.mp (List.mem_of_getElem? hb)).2
  simp [ha] at hv

/-- What the values of the types `ts` are answered. -/
theorem answersOf_of_forall₂ {values : List (Value Op Blk)} {ts : List Ty} {l : List (Answer π)}
    (h : values.map P.valueType = ts.map some)
    (hl : List.Forall₂ (fun v (a : Answer π) => a.OfType T (P.valueType v)) values l) :
    AnswersOf T ts l := by
  induction hl generalizing ts with
  | nil => exact .nil ts
  | cons ha _ ih =>
    obtain ⟨t, ts, rfl⟩ : ∃ t ts', ts = t :: ts' := by
      cases ts with
      | nil => simp at h
      | cons t ts => exact ⟨t, ts, rfl⟩
    obtain ⟨ht, hts⟩ := List.cons_eq_cons.mp h
    exact .cons (ht ▸ ha) (ih hts)

/-- A program that only asks for values keeps to any types. -/
theorem OnlyQueries.typed {α : Type} {ok : α → Prop} {p : ScopeM Op Blk σ π α} (hp : OnlyQueries p)
    (hok : ∀ a, ok a) : Typed P T ok p := by
  induction p with
  | ret a => exact hok a
  | call i k ih =>
    cases i with
    | query v => exact ⟨trivial, fun a _ => ih a (hp a)⟩
    | _ => exact hp.elim

theorem Typed.withBinding {α : Type} {ok : α → Prop} {block : Blk} {args : List (Answer π)}
    {body : ScopeM Op Blk σ π α} (ha : AnswersOf T (P.argTypes block) args)
    (hb : Typed P T ok body) : Typed P T ok (EvalScope.withBinding block args body) :=
  .call ha fun _ _ => hb.bind fun _ hok => .call trivial fun _ _ => .ret hok

theorem agree_query {α β : Type} {rel : α → β → Prop} {v : Value Op Blk} {t : Option Ty}
    (hv : P.valueType v = t) {f : Answer π → ScopeM Op Blk σ π α}
    {g : Answer π → ScopeM Op Blk σ π β}
    (h : ∀ a : Answer π, a.OfType T t → Prog.Agree (typing P T) rel (f a) (g a)) :
    Prog.Agree (typing P T) rel (EvalScope.query v >>= f) (EvalScope.query v >>= g) :=
  .call trivial fun a ha => h a (hv ▸ ha)

theorem agree_allocate {α β : Type} {rel : α → β → Prop} {payload : π}
    {f : EvalValue π → ScopeM Op Blk σ π α} {g : EvalValue π → ScopeM Op Blk σ π β}
    (h : ∀ v : EvalValue π, v.payload = payload → Prog.Agree (typing P T) rel (f v) (g v)) :
    Prog.Agree (typing P T) rel (EvalScope.allocate payload >>= f)
      (EvalScope.allocate payload >>= g) :=
  .call trivial h

theorem agree_withFreeze {α β : Type} {rel : α → β → Prop} {p : ScopeM Op Blk σ π α}
    {q : ScopeM Op Blk σ π β} (h : Prog.Agree (typing P T) rel p q) :
    Prog.Agree (typing P T) rel (EvalScope.withFreeze p) (EvalScope.withFreeze q) :=
  .call trivial fun _ _ => h.bind fun _ _ hab => .call trivial fun _ _ => .ret hab

end Rules

/-! ## No assertion fails -/

/-- The method with assertions returns what the one without them does, and that is of the right
types. -/
def Asserted (P : Program Op Blk) (op : Op) (r : Option (List (Answer APInt)))
    (l : List (Answer APInt)) : Prop :=
  r = some l ∧ AnswersOf IntOfType (P.resultTypes op) l

namespace Arith

variable {P : Program Op Blk} {op : Op} {lhs rhs : Value Op Blk} {t : Ty}

/-- A known integer of the type of an operation answers it. -/
theorem asserted_known (h : P.ArithShape op lhs rhs t) {v : EvalValue APInt}
    (hv : IntOfType (some t) v.payload) :
    Asserted P op (some [Answer.known v]) [Answer.known v] := by
  refine ⟨rfl, answersOf_singleton h.results ?_⟩
  rintro _ ⟨⟩
  exact hv

/-- A sum or a difference of integers of the type of an operation is of that type. -/
theorem agree_evaluateKnown (h : P.ArithShape op lhs rhs t) {fn : APInt → APInt → APInt}
    (hfn : ∀ a b, (fn a b).width = a.width) :
    Prog.Agree (typing (σ := σ) P IntOfType) (Asserted P op) (evaluateKnown? P fn op)
      (evaluateKnown P fn op) := by
  have single : ∀ {a : Answer APInt}, a.OfType IntOfType (some t) → Asserted P op (some [a]) [a] :=
    fun ha => ⟨rfl, answersOf_singleton h.results ha⟩
  rw [evaluateKnown?, evaluateKnown, h.operands]
  refine agree_query h.lhsType fun a ha => ?_
  rcases a with (_ | l) | st
  · exact .ret (single ha)
  · refine agree_query h.rhsType fun b hb => ?_
    rcases b with (_ | r) | st
    · exact .ret (single hb)
    · simp only [APInt.asserted_of_type fn (ha l rfl) (hb r rfl)]
      refine agree_allocate fun v hv => .ret (asserted_known h ?_)
      rw [hv, IntOfType, hfn]
      exact ha l rfl
    · exact .ret (single hb)
  · exact .ret (single ha)

/-- A product is of the type of an operation, and so is the zero that decides it. -/
theorem agree_evaluateMul (h : P.ArithShape op lhs rhs t) :
    Prog.Agree (typing (σ := σ) P IntOfType) (Asserted P op) (evaluateMul? P op)
      (evaluateMul P op) := by
  have single : ∀ {a : Answer APInt}, a.OfType IntOfType (some t) → Asserted P op (some [a]) [a] :=
    fun ha => ⟨rfl, answersOf_singleton h.results ha⟩
  rw [evaluateMul?, evaluateMul, h.operands]
  refine agree_query h.lhsType fun a ha => ?_
  rcases a with l | st
  · simp only
    split
    · exact .ret (single ha)
    · refine agree_query h.rhsType fun b hb => ?_
      rcases b with r | st
      · simp only
        split
        · exact .ret (single hb)
        · rcases l with _ | l <;> rcases r with _ | r
          · exact .ret (single (Answer.ofType_unknown _ _))
          · exact .ret (single (Answer.ofType_unknown _ _))
          · exact .ret (single (Answer.ofType_unknown _ _))
          · simp only [APInt.asserted_of_type APInt.mul (ha l rfl) (hb r rfl)]
            refine agree_allocate fun v hv => .ret (asserted_known h ?_)
            rw [hv]
            exact ha l rfl
      · exact .ret (single hb)
  · exact .ret (single ha)

end Arith

namespace SCF

variable (P : Program Op Blk)

theorem typed_queryKnown (values : List (Value Op Blk)) :
    Typed P IntOfType (fun r => ∀ l, r = .ok l →
        List.Forall₂ (fun u (v : EvalValue APInt) => IntOfType (P.valueType u) v.payload) values l)
      (queryKnown values : ScopeM Op Blk σ APInt (Except Exit (List (EvalValue APInt)))) := by
  induction values with
  | nil =>
    refine .ret fun l hl => ?_
    obtain rfl := Except.ok.inj hl
    exact .nil
  | cons u values ih =>
    refine .call trivial fun a ha => ?_
    rcases a with (_ | v) | st
    · exact .ret (by simp)
    · refine ih.bind fun r hr => ?_
      rcases r with exit | rest
      · exact .ret (by simp)
      · refine .ret fun l hl => ?_
        obtain rfl := Except.ok.inj hl
        exact .cons (ha v rfl) (hr rest rfl)
    · exact .ret (by simp)

theorem typed_queryYields (values : List (Value Op Blk)) :
    Typed P IntOfType (fun r => ∀ l, r = .ok l →
        List.Forall₂ (fun u (a : Answer APInt) => a.OfType IntOfType (P.valueType u)) values l)
      (queryYields values : ScopeM Op Blk σ APInt (Except Signal (List (Answer APInt)))) := by
  induction values with
  | nil =>
    refine .ret fun l hl => ?_
    obtain rfl := Except.ok.inj hl
    exact .nil
  | cons u values ih =>
    refine .call trivial fun a ha => ?_
    rcases a with slot | st
    · refine ih.bind fun r hr => ?_
      rcases r with st | rest
      · exact .ret (by simp)
      · refine .ret fun l hl => ?_
        obtain rfl := Except.ok.inj hl
        exact .cons ha (hr rest rfl)
    · exact .ret (by simp)

variable {P} {op : Op} {lb ub step : Value Op Blk} {inits yields : List (Value Op Blk)} {body : Blk}
  {t : Ty}

/-- A result of every result without a value. -/
theorem asserted_everyResult {a : Answer APInt} (ha : a.value? = none) :
    Asserted P op (some (everyResult P op a)) (everyResult P op a) :=
  ⟨rfl, answersOf_replicate _ _ ha⟩

/-- **Iteration arguments keep their types**, and the induction variable that of the bounds. -/
theorem agree_iterate (h : P.LoopShape op lb ub step inits body yields t) (isUnsigned : Bool)
    {ubv stepv : APInt} (hub : IntOfType (some t) ubv) (hstep : IntOfType (some t) stepv) (fuel : ℕ)
    {iv : APInt} (hiv : IntOfType (some t) iv) {carried : List (Answer APInt)}
    (hc : AnswersOf IntOfType (P.resultTypes op) carried) :
    Prog.Agree (typing (σ := σ) P IntOfType) (Asserted P op)
      (iterate? P op body isUnsigned ubv stepv fuel iv carried)
      (iterate P op body isUnsigned ubv stepv fuel iv carried) := by
  induction fuel generalizing iv carried with
  | zero => exact .ret (asserted_everyResult rfl)
  | succ fuel ih =>
    rw [iterate?, iterate, APInt.asserted_of_type _ hiv hub]
    cases less isUnsigned iv ubv with
    | false => exact .ret ⟨rfl, hc⟩
    | true =>
      refine .call trivial fun charged _ => ?_
      cases charged with
      | false => exact .ret (asserted_everyResult rfl)
      | true =>
        refine .call trivial fun induction hpayload => ?_
        have hargs : AnswersOf IntOfType (P.argTypes body) (.known induction :: carried) := by
          rw [h.args]
          refine .cons ?_ hc
          rintro _ ⟨⟩
          exact hpayload ▸ hiv
        refine (Typed.withBinding hargs (typed_queryYields P _)).agree_bind fun r hr => ?_
        rcases r with st | yielded
        · exact .ret (asserted_everyResult rfl)
        · have hnext : IntOfType (some t) (addOv isUnsigned iv stepv).1 := by
            cases isUnsigned <;> exact hiv
          have hy : AnswersOf IntOfType (P.resultTypes op) yielded :=
            answersOf_of_forall₂ (h.yieldedValues ▸ h.yieldTypes) (hr yielded rfl)
          simp only [APInt.asserted_of_type (addOv isUnsigned) hiv hstep]
          split
          · exact .ret (asserted_everyResult rfl)
          · exact ih hnext hy

/-- The loop starts with answers of the types of its bounds and initial values. -/
theorem agree_evaluate (h : P.LoopShape op lb ub step inits body yields t) (isUnsigned : Bool) :
    Prog.Agree (typing (σ := σ) P IntOfType) (Asserted P op) (evaluate? P op isUnsigned)
      (evaluate P op isUnsigned) := by
  have hbody : P.loopBody op = some body := Program.loopBody_eq_some.mpr h.regions
  rw [evaluate?, evaluate, h.operands, hbody]
  refine (typed_queryKnown P _).agree_bind fun r hr => ?_
  rcases r with (st | _) | l
  · exact .ret (asserted_everyResult rfl)
  · exact .ret (asserted_everyResult rfl)
  · -- Three bounds are queried, so three are known.
    obtain ⟨lbv, ubv, stepv, rfl, hlb, hub, hstep⟩ : ∃ lbv ubv stepv : EvalValue APInt,
        l = [lbv, ubv, stepv] ∧ IntOfType (some t) lbv.payload ∧ IntOfType (some t) ubv.payload ∧
          IntOfType (some t) stepv.payload := by
      have hl := hr l rfl
      rw [List.forall₂_cons_left_iff] at hl
      obtain ⟨lbv, l, hlb, hl, rfl⟩ := hl
      rw [List.forall₂_cons_left_iff] at hl
      obtain ⟨ubv, l, hub, hl, rfl⟩ := hl
      rw [List.forall₂_cons_left_iff] at hl
      obtain ⟨stepv, l, hstep, hl, rfl⟩ := hl
      obtain rfl := List.forall₂_nil_left_iff.mp hl
      exact ⟨lbv, ubv, stepv, rfl, h.control.1 ▸ hlb, h.control.2.1 ▸ hub, h.control.2.2 ▸ hstep⟩
    refine (typed_queryKnown P _).agree_bind fun r hr => ?_
    rcases r with (st | _) | carried
    · exact .ret (asserted_everyResult rfl)
    · exact .ret (asserted_everyResult rfl)
    · simp only
      split
      · exact .ret (asserted_everyResult rfl)
      · refine agree_withFreeze (agree_iterate h isUnsigned hub hstep _ hlb ?_)
        refine answersOf_of_forall₂ h.initTypes (List.forall₂_map_right_iff.mpr ?_)
        refine (hr carried rfl).imp fun u v huv => ?_
        rintro _ ⟨⟩
        exact huv

end SCF

/-! ## The models -/

section Models

variable (P : Program Op Blk) (H : HashFns Op Blk)

/-- What agrees with a method that asserts keeps to the types. -/
theorem Asserted.typed {op : Op} {p : ScopeM Op Blk σ APInt (Option (List (Answer APInt)))}
    {q : ScopeM Op Blk σ APInt (List (Answer APInt))}
    (h : Prog.Agree (typing P IntOfType) (Asserted P op) p q) :
    Typed P IntOfType (AnswersOf IntOfType (P.resultTypes op)) q :=
  h.obeys fun _ _ hrel => hrel.2

variable [DecidableEq Op]

/-- Operations of different result types are not equivalent, whatever their keys. -/
theorem Arith.typed_isEquivalentTo (op other : Op) :
    Typed P IntOfType (fun r => r = .completed true → P.resultTypes op = P.resultTypes other)
      (Arith.isEquivalentTo P op other : ScopeM Op Blk σ APInt (EvalResult Bool)) := by
  by_cases ht : P.resultTypes op = P.resultTypes other
  · exact (Arith.onlyQueries_isEquivalentTo P op other).typed fun _ _ => ht
  · rw [Arith.isEquivalentTo, if_pos (Or.inr (Or.inl ht))]
    exact .ret (by simp)

variable [DecidableEq Blk]

/-- Operations whose structure matches have the same result types. -/
theorem Matching.resultTypes_of_matchOperation {fuel : ℕ} {m m' : Matching Op Blk} {lhs rhs : Op}
    (h : Matching.matchOperation P fuel m lhs rhs = some m') :
    P.resultTypes lhs = P.resultTypes rhs := by
  cases fuel with
  | zero => simp [Matching.matchOperation] at h
  | succ fuel =>
    rw [Matching.matchOperation] at h
    split at h
    · simp at h
    · next hne =>
      by_contra ht
      exact hne (Or.inr (Or.inr (Or.inr (Or.inr (Or.inl ht)))))

theorem typed_isDefaultEquivalent [Fintype Op] (op other : Op) :
    Typed P IntOfType (fun r => r = .completed true → P.resultTypes op = P.resultTypes other)
      (isDefaultEquivalent P op other : ScopeM Op Blk σ APInt (EvalResult Bool)) := by
  by_cases ht : P.resultTypes op = P.resultTypes other
  · exact (onlyQueries_isDefaultEquivalent P op other).typed fun _ _ => ht
  · have hne : op ≠ other := fun h => ht (h ▸ rfl)
    have hmatch : Matching.matchOperation P (Fintype.card Op + 1) .empty op other = none :=
      Option.eq_none_iff_forall_ne_some.mpr fun m hm =>
        ht (Matching.resultTypes_of_matchOperation P hm)
    rw [isDefaultEquivalent, isEquivalentTo, if_neg hne, checkOperations, hmatch]
    exact .ret (by simp)

omit [DecidableEq Blk] in
theorem Arith.binaryOpEval_typed {op : Op}
    {evaluate : ScopeM Op Blk σ APInt (List (Answer APInt))}
    (he : Typed P IntOfType (AnswersOf IntOfType (P.resultTypes op)) evaluate) :
    (Arith.binaryOpEval P H op evaluate).Typed P IntOfType op :=
  ⟨.ret trivial, (Arith.onlyQueries_getHash P H op).typed fun _ => trivial,
    Arith.typed_isEquivalentTo P op, he⟩

variable [Fintype Op] {P}

/-- **No assertion fails** in a model of a verified program that is answered with values of the
right types. -/
theorem agree_evaluate (hP : P.Verified) {op : Op} {model : OpModel Op Blk σ APInt}
    (hm : (shippedModels P H).op op = some model) :
    Prog.Agree (typing P IntOfType) (Asserted P op) (shippedEvaluate? P op) model.evaluate := by
  simp only [shippedModels] at hm
  split at hm
  · next hk =>
    obtain ⟨l, r, t, h⟩ := hP.arith op (by simp [Program.isArith, hk])
    obtain rfl := Option.some.inj hm
    rw [shippedEvaluate?, hk]
    exact Arith.agree_evaluateKnown h fun _ _ => rfl
  · next hk =>
    obtain ⟨l, r, t, h⟩ := hP.arith op (by simp [Program.isArith, hk])
    obtain rfl := Option.some.inj hm
    rw [shippedEvaluate?, hk]
    exact Arith.agree_evaluateKnown h fun _ _ => rfl
  · next hk =>
    obtain ⟨l, r, t, h⟩ := hP.arith op (by simp [Program.isArith, hk])
    obtain rfl := Option.some.inj hm
    rw [shippedEvaluate?, hk]
    exact Arith.agree_evaluateMul h
  · next hk =>
    obtain ⟨lb, ub, step, inits, body, yields, t, h⟩ := hP.loop op (by simp [Program.isLoop, hk])
    obtain rfl := Option.some.inj hm
    rw [shippedEvaluate?, hk]
    exact SCF.agree_evaluate h _
  · simp at hm

/-- **The shipped models keep to the types of a verified program.** -/
theorem shipped_typed (hP : P.Verified) (mem : Malloc) :
    (shipped P H mem : Setup Op Blk σ APInt).Typed IntOfType where
  op op model hm := by
    have he := Asserted.typed P (agree_evaluate H hP hm)
    simp only [shipped, shippedModels] at hm
    split at hm
    · obtain rfl := Option.some.inj hm
      exact Arith.binaryOpEval_typed P H he
    · obtain rfl := Option.some.inj hm
      exact Arith.binaryOpEval_typed P H he
    · obtain rfl := Option.some.inj hm
      exact Arith.binaryOpEval_typed P H he
    · obtain rfl := Option.some.inj hm
      exact ⟨.ret trivial, (onlyQueries_getDefaultHash P H op).typed fun _ => trivial,
        typed_isDefaultEquivalent P op, he⟩
    · simp at hm
  constant op attr model payload _ hattr hmodel hv i hi := by
    cases attr with
    | other id => simp [shipped, shippedModels] at hmodel
    | integer value =>
      obtain rfl := Option.some.inj hmodel
      obtain rfl : value = payload := Option.some.inj hv
      obtain ⟨t, htypes, hw⟩ := hP.constant op value hattr
      obtain rfl : i = 0 := by simpa [shipped, Program.numResults, htypes] using hi
      simpa [IntOfType, shipped, Program.valueType, htypes] using hw

end Models

end MlirInterpreter
