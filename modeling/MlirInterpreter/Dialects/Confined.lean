import MlirInterpreter.Dialects.SCF
import MlirInterpreter.Engine.Handles

/-!
# The shipped models are confined

The methods of the shipped models bind and return only handles a nested query answered or they
allocated themselves, so what `Engine.Handles` shows holds of them.
-/

set_option autoImplicit false

namespace MlirInterpreter

variable {Op Blk σ π : Type}

/-! ## Rules -/

section Rules

variable {α β : Type} {ok : List (EvalValue π) → α → Prop}

theorem Confined.ret {held : List (EvalValue π)} {a : α} (h : ok held a) :
    Confined ok held (pure a : ScopeM Op Blk σ π α) := h

theorem Confined.query {held : List (EvalValue π)} {v : Value Op Blk}
    {f : Answer π → ScopeM Op Blk σ π α}
    (h : ∀ a, Confined ok (a.value?.toList ++ held) (f a)) :
    Confined ok held (EvalScope.query v >>= f) := h

theorem Confined.allocate {held : List (EvalValue π)} {payload : π}
    {f : EvalValue π → ScopeM Op Blk σ π α} (h : ∀ v, Confined ok (v :: held) (f v)) :
    Confined ok held (EvalScope.allocate payload >>= f) := h

theorem Confined.declareCost {held : List (EvalValue π)} {f : Bool → ScopeM Op Blk σ π α}
    (h : ∀ r, Confined ok held (f r)) : Confined ok held (EvalScope.declareCost >>= f) := h

/-- What a program held at first it holds in the end. -/
theorem Confined.bind {held : List (EvalValue π)} {ok' : List (EvalValue π) → β → Prop}
    {p : ScopeM Op Blk σ π α} {f : α → ScopeM Op Blk σ π β} (hp : Confined ok held p)
    (hf : ∀ held' a, held ⊆ held' → ok held' a → Confined ok' held' (f a)) :
    Confined ok' held (p >>= f) := by
  induction p generalizing held with
  | ret a => exact hf held a (List.Subset.refl _) hp
  | call i k ih =>
    have next : ∀ r held', held ⊆ held' → Confined ok held' (k r) →
        Confined ok' held' (k r >>= f) := fun r held' hsub hk =>
      ih r hk fun held'' a hsub' => hf held'' a (List.Subset.trans hsub hsub')
    cases i with
    | query v => exact fun a => next a _ (List.subset_append_right _ _) (hp a)
    | declareCost => exact fun r => next r held (List.Subset.refl _) (hp r)
    | freezeCache => exact next () held (List.Subset.refl _) hp
    | thawCache => exact next () held (List.Subset.refl _) hp
    | bind block args => exact ⟨hp.1, next () held (List.Subset.refl _) hp.2⟩
    | unbind block => exact next () held (List.Subset.refl _) hp
    | allocate payload => exact fun v => next v _ (List.subset_cons_self _ _) (hp v)
    | getWorld => exact fun w => next w held (List.Subset.refl _) (hp w)
    | setWorld w => exact next () held (List.Subset.refl _) hp

theorem Confined.withFreeze {held : List (EvalValue π)} {body : ScopeM Op Blk σ π α}
    (h : Confined ok held body) : Confined ok held (EvalScope.withFreeze body) :=
  have hb : Confined ok held (body >>= fun a => Prog.lift .thawCache >>= fun _ => pure a) :=
    h.bind fun _ _ _ ha => ha
  hb

theorem Confined.withBinding {held : List (EvalValue π)} {block : Blk} {args : List (Answer π)}
    {body : ScopeM Op Blk σ π α} (ha : HeldBy held args) (h : Confined ok held body) :
    Confined ok held (EvalScope.withBinding block args body) :=
  have hb : Confined ok held (body >>= fun a => Prog.lift (.unbind block) >>= fun _ => pure a) :=
    h.bind fun _ _ _ ha => ha
  ⟨ha, hb⟩

/-- A program that hands on no handle at all. -/
abbrev Harmless (p : ScopeM Op Blk σ π α) : Prop := ∀ held, Confined (fun _ _ => True) held p

/-- A program that does nothing but ask for values. -/
def OnlyQueries : ScopeM Op Blk σ π α → Prop
  | .ret _ => True
  | .call (.query _) k => ∀ a : Answer π, OnlyQueries (k a)
  | _ => False

theorem OnlyQueries.pure (a : α) : OnlyQueries (Pure.pure a : ScopeM Op Blk σ π α) := trivial

theorem OnlyQueries.query (v : Value Op Blk) :
    OnlyQueries (EvalScope.query v : ScopeM Op Blk σ π (Answer π)) :=
  fun _ => trivial

theorem OnlyQueries.bind {p : ScopeM Op Blk σ π α} {f : α → ScopeM Op Blk σ π β}
    (hp : OnlyQueries p) (hf : ∀ a, OnlyQueries (f a)) : OnlyQueries (p >>= f) := by
  induction p with
  | ret a => exact hf a
  | call i k ih =>
    cases i with
    | query v => exact fun a => ih a (hp a)
    | _ => exact hp.elim

/-- What is only asked for is not handed on. -/
theorem OnlyQueries.harmless {p : ScopeM Op Blk σ π α} (hp : OnlyQueries p) : Harmless p := by
  induction p with
  | ret a => exact fun _ => .ret trivial
  | call i k ih =>
    cases i with
    | query v => exact fun _ a => ih a (hp a) _
    | _ => exact hp.elim

end Rules

/-! ## The default cache key -/

section Defaults

variable (P : Program Op Blk) (H : HashFns Op Blk)

theorem onlyQueries_hashOperands
    (hashOperand : Value Op Blk → ScopeM Op Blk σ π (EvalResult HashCode))
    (hh : ∀ v, OnlyQueries (hashOperand v)) (commutative : Bool) (l : List (Value Op Blk))
    (hash sum : HashCode) : OnlyQueries (hashOperands H hashOperand commutative l hash sum) := by
  induction l generalizing hash sum with
  | nil => exact .pure _
  | cons v l ih =>
    refine (hh v).bind fun r => ?_
    cases r with
    | signal status => exact .pure _
    | completed h =>
      simp only
      split
      · exact ih _ _
      · exact ih _ _

variable [DecidableEq Op] [DecidableEq Blk]

theorem onlyQueries_takeFirst (m : Matching Op Blk)
    (check : Value Op Blk → Value Op Blk → ScopeM Op Blk σ π (EvalResult Bool))
    (hc : ∀ l r, OnlyQueries (m.compareValues P check l r)) (l : Value Op Blk)
    (rs : List (Value Op Blk × Bool)) : OnlyQueries (m.takeFirst P check l rs) := by
  induction rs with
  | nil => exact .pure _
  | cons r rs ih =>
    obtain ⟨r, isUsed⟩ := r
    cases isUsed with
    | true =>
      refine ih.bind fun x => ?_
      rcases x with (_ | rs') | st <;> exact .pure _
    | false =>
      refine (hc l r).bind fun x => ?_
      rcases x with (_ | _) | st
      · refine ih.bind fun x => ?_
        rcases x with (_ | rs') | st <;> exact .pure _
      · exact .pure _
      · exact .pure _

theorem onlyQueries_pairUp (m : Matching Op Blk)
    (check : Value Op Blk → Value Op Blk → ScopeM Op Blk σ π (EvalResult Bool))
    (hc : ∀ l r, OnlyQueries (m.compareValues P check l r)) (ls : List (Value Op Blk))
    (rs : List (Value Op Blk × Bool)) : OnlyQueries (m.pairUp P check ls rs) := by
  induction ls generalizing rs with
  | nil => exact .pure _
  | cons l ls ih =>
    refine (onlyQueries_takeFirst P m check hc l rs).bind fun x => ?_
    rcases x with (_ | rs') | st
    · exact .pure _
    · exact ih rs'
    · exact .pure _

theorem onlyQueries_compareOperands (m : Matching Op Blk)
    (check : Value Op Blk → Value Op Blk → ScopeM Op Blk σ π (EvalResult Bool))
    (hc : ∀ l r, OnlyQueries (m.compareValues P check l r)) (ls rs : List (Value Op Blk)) :
    OnlyQueries (m.compareOperands P check ls rs) := by
  induction ls generalizing rs with
  | nil => exact .pure _
  | cons l ls ih =>
    cases rs with
    | nil => exact .pure _
    | cons r rs =>
      refine (hc l r).bind fun x => ?_
      rcases x with (_ | _) | st
      · exact .pure _
      · exact ih rs
      · exact .pure _

theorem onlyQueries_compareAll (m : Matching Op Blk)
    (check : Value Op Blk → Value Op Blk → ScopeM Op Blk σ π (EvalResult Bool))
    (hc : ∀ l r, OnlyQueries (m.compareValues P check l r)) (ops : List (Op × Op)) :
    OnlyQueries (m.compareAll P check ops) := by
  induction ops with
  | nil => exact .pure _
  | cons p ops ih =>
    obtain ⟨l, r⟩ := p
    simp only [Matching.compareAll]
    split
    · refine (onlyQueries_pairUp P m check hc _ _).bind fun x => ?_
      rcases x with (_ | _) | st
      · exact .pure _
      · exact ih
      · exact .pure _
    · refine (onlyQueries_compareOperands P m check hc _ _).bind fun x => ?_
      rcases x with (_ | _) | st
      · exact .pure _
      · exact ih
      · exact .pure _

theorem onlyQueries_isEquivalentTo [Fintype Op]
    (check : Value Op Blk → Value Op Blk → ScopeM Op Blk σ π (EvalResult Bool))
    (hc : ∀ l r, OnlyQueries (check l r)) (lhs rhs : Op) :
    OnlyQueries (isEquivalentTo P check lhs rhs) := by
  rw [isEquivalentTo]
  split
  · exact .pure _
  · rw [checkOperations]
    split
    · exact .pure _
    · split
      · refine onlyQueries_compareAll P _ check (fun l r => ?_) _
        rw [Matching.compareValues]
        split
        · exact .pure _
        · exact hc l r
      · exact .pure _

omit [DecidableEq Op] [DecidableEq Blk] in
theorem onlyQueries_getDefaultHash (op : Op) :
    OnlyQueries (getDefaultHash P H op : ScopeM Op Blk σ APInt (EvalResult HashCode)) := by
  refine (onlyQueries_hashOperands H _ (fun v => ?_) _ _ _ _).bind fun x => ?_
  · refine (OnlyQueries.query v).bind fun a => ?_
    rcases a with (_ | w) | st <;> exact .pure _
  · rcases x with ⟨hash, sum⟩ | st <;> exact .pure _

theorem onlyQueries_isDefaultEquivalent [Fintype Op] (op other : Op) :
    OnlyQueries (isDefaultEquivalent P op other : ScopeM Op Blk σ APInt (EvalResult Bool)) := by
  refine onlyQueries_isEquivalentTo P _ (fun l r => ?_) op other
  rw [isEvaluatedValueEqual]
  split
  · exact .pure _
  · refine (OnlyQueries.query l).bind fun a => ?_
    rcases a with (_ | v) | st
    · exact .pure _
    · refine (OnlyQueries.query r).bind fun b => ?_
      rcases b with (_ | w) | st <;> exact .pure _
    · exact .pure _

end Defaults

/-! ## The models -/

/-- A model that only answers with what it was answered may hand its answers on. -/
theorem heldBy_singleton {held : List (EvalValue π)} {a : Answer π}
    (h : ∀ v, a.value? = some v → v ∈ held) : HeldBy held [a] := by
  intro b hb v hv
  obtain rfl := List.mem_singleton.mp hb
  exact h v hv

theorem heldBy_replicate {held : List (EvalValue π)} {n : ℕ} {a : Answer π}
    (h : ∀ v, a.value? = some v → v ∈ held) : HeldBy held (List.replicate n a) := by
  intro b hb v hv
  obtain rfl := (List.mem_replicate.mp hb).2
  exact h v hv

namespace Arith

variable (P : Program Op Blk) (H : HashFns Op Blk)

theorem onlyQueries_getKey (op : Op) :
    OnlyQueries (getKey P op : ScopeM Op Blk σ APInt (EvalResult (BinaryKey Op))) := by
  rw [getKey]
  split
  · refine (OnlyQueries.query _).bind fun a => ?_
    rcases a with lhs | st
    · simp only
      split
      · exact .pure _
      · split
        · exact .pure _
        · refine (OnlyQueries.query _).bind fun b => ?_
          rcases b with rhs | st
          · simp only
            split
            · exact .pure _
            · rcases lhs with _ | lhs <;> rcases rhs with _ | rhs <;> exact .pure _
          · exact .pure _
    · exact .pure _
  · exact .pure _

theorem onlyQueries_getHash (op : Op) :
    OnlyQueries (getHash P H op : ScopeM Op Blk σ APInt (EvalResult HashCode)) := by
  refine (onlyQueries_getKey P op).bind fun x => ?_
  rcases x with key | st <;> exact .pure _

theorem onlyQueries_isEquivalentTo [DecidableEq Op] (op other : Op) :
    OnlyQueries (isEquivalentTo P op other : ScopeM Op Blk σ APInt (EvalResult Bool)) := by
  rw [isEquivalentTo]
  split
  · exact .pure _
  · refine (onlyQueries_getKey P op).bind fun x => ?_
    rcases x with key | st
    · refine (onlyQueries_getKey P other).bind fun y => ?_
      rcases y with key' | st <;> exact .pure _
    · exact .pure _

theorem confined_evaluateKnown (fn : APInt → APInt → APInt) (op : Op) :
    Confined HeldBy [] (evaluateKnown P fn op : ScopeM Op Blk σ APInt (List (Answer APInt))) := by
  rw [evaluateKnown]
  split
  · refine .query fun a => ?_
    rcases a with (_ | lhs) | st
    · exact .ret (heldBy_singleton (by simp))
    · refine .query fun b => ?_
      rcases b with (_ | rhs) | st
      · exact .ret (heldBy_singleton (by simp))
      · exact .allocate fun v => .ret (heldBy_singleton (by simp))
      · exact .ret (heldBy_singleton (by simp))
    · exact .ret (heldBy_singleton (by simp))
  · exact .ret (heldBy_singleton (by simp))

theorem confined_evaluateMul (op : Op) :
    Confined HeldBy [] (evaluateMul P op : ScopeM Op Blk σ APInt (List (Answer APInt))) := by
  rw [evaluateMul]
  split
  · refine .query fun a => ?_
    rcases a with lhs | st
    · simp only
      split
      · exact .ret (heldBy_singleton (by simp [Answer.value?]))
      · refine .query fun b => ?_
        rcases b with rhs | st
        · simp only
          split
          · exact .ret (heldBy_singleton (by simp +contextual [Answer.value?]))
          · rcases lhs with _ | lhs <;> rcases rhs with _ | rhs
            · exact .ret (heldBy_singleton (by simp))
            · exact .ret (heldBy_singleton (by simp))
            · exact .ret (heldBy_singleton (by simp))
            · exact .allocate fun v => .ret (heldBy_singleton (by simp))
        · exact .ret (heldBy_singleton (by simp))
    · exact .ret (heldBy_singleton (by simp))
  · exact .ret (heldBy_singleton (by simp))

variable [DecidableEq Op]

theorem binaryOpEval_confined (op : Op)
    {evaluate : ScopeM Op Blk σ APInt (List (Answer APInt))} (he : Confined HeldBy [] evaluate) :
    (binaryOpEval P H op evaluate).Confined :=
  ⟨(OnlyQueries.pure _).harmless [], (onlyQueries_getHash P H op).harmless [],
    fun other => (onlyQueries_isEquivalentTo P op other).harmless [], he⟩

end Arith

namespace SCF

variable (P : Program Op Blk) (H : HashFns Op Blk)

/-- All values of a list are held. -/
def ValuesHeld (held : List (EvalValue APInt)) (r : Except Exit (List (EvalValue APInt))) : Prop :=
  ∀ l, r = .ok l → ∀ v ∈ l, v ∈ held

theorem confined_queryKnown (l : List (Value Op Blk)) (held : List (EvalValue APInt)) :
    Confined ValuesHeld held
      (queryKnown l : ScopeM Op Blk σ APInt (Except Exit (List (EvalValue APInt)))) := by
  induction l generalizing held with
  | nil => exact .ret (by simp [ValuesHeld])
  | cons u l ih =>
    refine .query fun a => ?_
    rcases a with (_ | w) | st
    · exact .ret (by simp [ValuesHeld])
    · refine (ih _).bind fun held' r hsub hr => ?_
      rcases r with exit | rest
      · exact .ret (by simp [ValuesHeld])
      · refine .ret fun l hl v hv => ?_
        obtain rfl := Except.ok.inj hl
        rcases List.mem_cons.mp hv with rfl | hv
        · exact hsub (by simp)
        · exact hr _ rfl v hv
    · exact .ret (by simp [ValuesHeld])

/-- All answers of a list are held. -/
def AnswersHeld (held : List (EvalValue APInt)) (r : Except Signal (List (Answer APInt))) : Prop :=
  ∀ l, r = .ok l → HeldBy held l

theorem confined_queryYields (l : List (Value Op Blk)) (held : List (EvalValue APInt)) :
    Confined AnswersHeld held
      (queryYields l : ScopeM Op Blk σ APInt (Except Signal (List (Answer APInt)))) := by
  induction l generalizing held with
  | nil => exact .ret (by simp [AnswersHeld, HeldBy])
  | cons u l ih =>
    refine .query fun a => ?_
    rcases a with slot | st
    · refine (ih _).bind fun held' r hsub hr => ?_
      rcases r with exit | rest
      · exact .ret (by simp [AnswersHeld])
      · refine .ret fun l hl a ha v hv => ?_
        obtain rfl := Except.ok.inj hl
        rcases List.mem_cons.mp ha with rfl | ha
        · exact hsub (by simpa using Or.inl hv)
        · exact hr _ rfl a ha v hv
    · exact .ret (by simp [AnswersHeld])

theorem confined_iterate (op : Op) (body : Blk) (isUnsigned : Bool) (ub step : APInt) (fuel : ℕ)
    (iv : APInt) (carried : List (Answer APInt)) (held : List (EvalValue APInt))
    (hc : HeldBy held carried) :
    Confined HeldBy held (iterate P op body isUnsigned ub step fuel iv carried :
      ScopeM Op Blk σ APInt (List (Answer APInt))) := by
  induction fuel generalizing iv carried held with
  | zero => exact .ret (heldBy_replicate (by simp))
  | succ fuel ih =>
    rw [iterate]
    split
    · refine .declareCost fun r => ?_
      cases r with
      | false => exact .ret (heldBy_replicate (by simp))
      | true =>
        refine .allocate fun v => ?_
        refine ((confined_queryYields _ _).withBinding ?_).bind fun held' r hsub hr => ?_
        · intro a ha w hw
          rcases List.mem_cons.mp ha with rfl | ha
          · exact Option.some.inj hw ▸ List.mem_cons_self
          · exact List.mem_cons_of_mem _ (hc a ha w hw)
        · rcases r with st | yielded
          · exact .ret (heldBy_replicate (by simp))
          · simp only
            split
            · exact .ret (heldBy_replicate (by simp))
            · exact ih _ _ _ (hr _ rfl)
    · exact .ret hc

theorem confined_evaluate (op : Op) (isUnsigned : Bool) :
    Confined HeldBy []
      (evaluate P op isUnsigned : ScopeM Op Blk σ APInt (List (Answer APInt))) := by
  have hsignal : ∀ held st, HeldBy held (everyResult P op (.signal st)) := fun held st =>
    heldBy_replicate (by simp)
  have hunknown : ∀ held, HeldBy held (everyResult P op .unknown) := fun held =>
    heldBy_replicate (by simp)
  rw [evaluate]
  split
  · rw [evaluateLoop]
    refine (confined_queryKnown _ _).bind fun held r hsub hr => ?_
    rcases r with (st | _) | l
    · exact .ret (hsignal _ st)
    · exact .ret (hunknown _)
    · rcases l with _ | ⟨lb, _ | ⟨ub, _ | ⟨step, _ | ⟨x, l⟩⟩⟩⟩
      case cons.cons.cons.nil =>
        refine (confined_queryKnown _ _).bind fun held' r hsub' hr' => ?_
        rcases r with (st | _) | carried
        · exact .ret (hsignal _ st)
        · exact .ret (hunknown _)
        · simp only
          split
          · exact .ret (hunknown _)
          · refine (confined_iterate P op _ _ _ _ _ _ _ _ ?_).withFreeze
            intro a ha v hv
            obtain ⟨w, hw, rfl⟩ := List.mem_map.mp ha
            exact hr' _ rfl v (Option.some.inj hv ▸ hw)
      all_goals exact .ret (hunknown _)
  · exact .ret (hunknown _)

variable [DecidableEq Op] [DecidableEq Blk]

theorem forOpEval_confined [Fintype Op] (op : Op) (isUnsigned : Bool) :
    (forOpEval P H op isUnsigned : OpModel Op Blk σ APInt).Confined :=
  ⟨(OnlyQueries.pure _).harmless [], (onlyQueries_getDefaultHash P H op).harmless [],
    fun other => (onlyQueries_isDefaultEquivalent P op other).harmless [],
    confined_evaluate P op isUnsigned⟩

end SCF

variable [DecidableEq Op] [DecidableEq Blk]

/-- **The shipped models are confined.** -/
theorem shippedModels_confined [Fintype Op] (P : Program Op Blk) (H : HashFns Op Blk) :
    (shippedModels P H : Models Op Blk σ APInt).Confined := by
  intro op model hm
  simp only [shippedModels] at hm
  split at hm
  · exact Option.some.inj hm ▸ Arith.binaryOpEval_confined P H op
      (Arith.confined_evaluateKnown P _ op)
  · exact Option.some.inj hm ▸ Arith.binaryOpEval_confined P H op
      (Arith.confined_evaluateKnown P _ op)
  · exact Option.some.inj hm ▸ Arith.binaryOpEval_confined P H op (Arith.confined_evaluateMul P op)
  · exact Option.some.inj hm ▸ SCF.forOpEval_confined P H op _
  · simp at hm

/-- What a loop leaves in the cache is a copy of what it computed. -/
theorem handles_never_outlive_query_loopProgram :
    ∃ t ∈ (query loopSetup 0 100 (.result 8 0) (State.init ())).visited, ∃ e i original copy,
      t.log.head? = some (.filled e i original copy) ∧ CacheOwned t copy ∧
        copy.payload = original.payload := by
  have hfill : ((query loopSetup 0 100 (.result 8 0) (State.init ())).visited.any fun t =>
      t.log.head?.any Event.isFilled) = true := by decide +kernel
  obtain ⟨t, ht, hlog⟩ := List.any_eq_true.mp hfill
  obtain ⟨e, he, hevent⟩ := (Option.any_eq_true _ _).mp hlog
  cases e <;> simp only [Event.isFilled, Bool.false_eq_true] at hevent
  next e i original copy =>
    obtain ⟨-, hown, hpay⟩ := (handles_never_outlive_query
      (shippedModels_confined loopProgram .numbered) (.init ()) 0 100 (.result 8 0) t
      (List.mem_append_right _ ht)).filled e i original copy he
    exact ⟨t, ht, e, i, original, copy, he, hown, hpay⟩

end MlirInterpreter
