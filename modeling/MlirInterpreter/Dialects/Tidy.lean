import MlirInterpreter.Dialects.SCF
import MlirInterpreter.Engine.Discipline
import MlirInterpreter.Reference.Congruence

/-!
# The shipped models are tidy

In a verified program the shipped models ask for values that exist, bind the body of a loop with one
answer per argument and only while it runs, and return one answer per result.  So what
`Engine.Discipline` shows holds of them, next to any other tidy models.
-/

set_option autoImplicit false

namespace MlirInterpreter

variable {Op Blk σ π : Type}

/-! ## Rules -/

section Rules

variable {P : Program Op Blk} {op : Op} {α : Type} {Q : α → OpenScopes Blk → Prop}
  {o : OpenScopes Blk}

theorem keeps_query {v : Value Op Blk} {f : Answer π → ScopeM Op Blk σ π α} (hv : P.Valid v)
    (h : ∀ a, (f a).Keeps (scopeProtocol P op) Q o) :
    (EvalScope.query v >>= f).Keeps (scopeProtocol P op) Q o := .call hv h

theorem keeps_allocate {payload : π} {f : EvalValue π → ScopeM Op Blk σ π α}
    (h : ∀ v, (f v).Keeps (scopeProtocol P op) Q o) :
    (EvalScope.allocate payload >>= f).Keeps (scopeProtocol P op) Q o := .call trivial h

theorem keeps_declareCost {f : Bool → ScopeM Op Blk σ π α}
    (h : ∀ r, (f r).Keeps (scopeProtocol P op) Q o) :
    (EvalScope.declareCost >>= f).Keeps (scopeProtocol P op) Q o := .call trivial h

/-- What a freeze encloses starts and ends with one freeze more. -/
theorem keeps_withFreeze {p : ScopeM Op Blk σ π α}
    (h : p.Keeps (scopeProtocol P op)
      (fun a o' => o' = { o with freezes := o.freezes + 1 } ∧ Q a o)
      { o with freezes := o.freezes + 1 }) :
    (EvalScope.withFreeze p).Keeps (scopeProtocol P op) Q o := by
  refine .call trivial fun _ => Prog.Follows.bind (h.mono ?_)
  rintro a o' ⟨rfl, hQ⟩
  exact .call (Nat.succ_pos _) fun _ _ => .ret hQ

/-- What a binding encloses starts and ends with the block bound. -/
theorem keeps_withBinding {β : Type} {block : Blk} {args : List (Answer π)}
    {p : ScopeM Op Blk σ π β} {f : β → ScopeM Op Blk σ π α}
    (hown : (P.parentRegion block).op = op) (hnew : block ∉ o.blocks)
    (hargs : args.length = P.numArgs block)
    (h : p.Keeps (scopeProtocol P op)
      (fun b o' => o' = { o with blocks := block :: o.blocks } ∧
        (f b).Keeps (scopeProtocol P op) Q o)
      { o with blocks := block :: o.blocks }) :
    (EvalScope.withBinding block args p >>= f).Keeps (scopeProtocol P op) Q o := by
  have hbody : (EvalScope.withBinding block args p).Keeps (scopeProtocol P op)
      (fun b o' => o' = o ∧ (f b).Keeps (scopeProtocol P op) Q o) o := by
    refine .call ⟨hown, hnew, hargs⟩ fun _ => Prog.Follows.bind (h.mono ?_)
    rintro b o' ⟨rfl, hf⟩
    exact .call rfl fun _ _ => .ret ⟨rfl, hf⟩
  refine Prog.Follows.bind (hbody.mono ?_)
  rintro b _ ⟨rfl, hf⟩
  exact hf

end Rules

/-! ## The default cache key -/

section Defaults

variable {P : Program Op Blk} (H : HashFns Op Blk) {op : Op}

theorem keeps_hashOperands {l : List (Value Op Blk)} (hl : ∀ v ∈ l, P.Valid v) (commutative : Bool)
    (hash sum : HashCode) {o : OpenScopes Blk} :
    (hashOperands H (hashEvaluatedValue H) commutative l hash sum :
      ScopeM Op Blk σ APInt _).Keeps (scopeProtocol P op) (fun _ o' => o' = o) o := by
  induction l generalizing hash sum with
  | nil => exact .ret rfl
  | cons v l ih =>
    have rest : ∀ hash sum, (hashOperands H (hashEvaluatedValue H) commutative l hash sum :
        ScopeM Op Blk σ APInt _).Keeps (scopeProtocol P op) (fun _ o' => o' = o) o :=
      ih fun w hw => hl w (List.mem_cons_of_mem _ hw)
    refine keeps_query (hl v List.mem_cons_self) fun a => ?_
    rcases a with (_ | w) | st
    · cases commutative <;> exact rest _ _
    · cases commutative <;> exact rest _ _
    · exact .ret rfl

theorem tidy_getDefaultHash (hP : P.Verified) :
    TidyMethod P op (fun _ => True)
      (getDefaultHash P H op : ScopeM Op Blk σ APInt (EvalResult HashCode)) := by
  refine Prog.Follows.bind ((keeps_hashOperands H (hP.valid op) _ _ _).mono ?_)
  rintro (⟨hash, sum⟩ | st) _ rfl
  · exact .ret ⟨rfl, trivial⟩
  · exact .ret ⟨rfl, trivial⟩

/-- A comparison leaves everything closed, whatever it says. -/
def closedJudging : Judging Op Blk (OpenScopes Blk) where
  Inv o := o = .none
  Rel _ o := o = .none
  Stops _ _ o := o = .none
  yes _ _ := True
  no _ _ := True

variable [DecidableEq Op] [DecidableEq Blk]

theorem tidy_isDefaultEquivalent [Fintype Op] (hP : P.Verified) (other : Op) :
    TidyMethod P op (fun _ => True)
      (isDefaultEquivalent P op other : ScopeM Op Blk σ APInt (EvalResult Bool)) := by
  have hkept : (closedJudging : Judging Op Blk (OpenScopes Blk)).Kept
      ((scopeProtocol P op).dialogue (ScopeOp.Response (σ := σ))).logic isEvaluatedValueEqual
      fun x y => P.Valid x ∧ P.Valid y := by
    refine ⟨fun _ h => h, fun _ _ _ _ h => h, fun _ _ h => h, fun _ _ _ _ _ h => h, ?_⟩
    rintro _ x y rfl ⟨hx, hy⟩
    change Prog.Keeps _ _ _ (isEvaluatedValueEqual x y)
    rw [isEvaluatedValueEqual]
    split
    · exact .ret ⟨rfl, trivial⟩
    · refine keeps_query hx fun a => ?_
      rcases a with (_ | v) | st
      · exact .ret ⟨rfl, trivial⟩
      · refine keeps_query hy fun b => ?_
        rcases b with (_ | w) | st
        · exact .ret ⟨rfl, trivial⟩
        · cases hvw : v.isEqual w
          · exact .ret (by rw [hvw]; exact ⟨rfl, trivial⟩)
          · exact .ret (by rw [hvw]; exact ⟨rfl, trivial⟩)
        · exact .ret rfl
      · exact .ret rfl
  have hclosed : (closedJudging : Judging Op Blk (OpenScopes Blk)).Inv .none := rfl
  rw [isDefaultEquivalent]
  refine Prog.Follows.mono (wp_isEquivalentTo_reference Env.empty hP hkept hclosed) ?_
  rintro ((_ | _) | st) o ho
  · exact ⟨ho.1, trivial⟩
  · exact ⟨ho.1, trivial⟩
  · exact ⟨ho, trivial⟩

end Defaults

/-! ## The `arith` models -/

section Arith

open Arith

variable {P : Program Op Blk} (H : HashFns Op Blk) {op : Op}

theorem keeps_getKey (hP : P.Verified) (other : Op) {o : OpenScopes Blk} :
    (getKey P other : ScopeM Op Blk σ APInt (EvalResult (BinaryKey Op))).Keeps (scopeProtocol P op)
      (fun _ o' => o' = o) o := by
  have hvalid := hP.valid other
  rw [getKey]
  split
  · next l r ho =>
    refine keeps_query (hvalid l (by simp [ho])) fun a => ?_
    rcases a with lhs | st
    · simp only
      split
      · exact .ret rfl
      · split
        · exact .ret rfl
        · refine keeps_query (hvalid r (by simp [ho])) fun b => ?_
          rcases b with rhs | st
          · simp only
            split
            · exact .ret rfl
            · rcases lhs with _ | lhs <;> rcases rhs with _ | rhs <;> exact .ret rfl
          · exact .ret rfl
    · exact .ret rfl
  · exact .ret rfl

theorem tidy_arithHash (hP : P.Verified) :
    TidyMethod P op (fun _ => True)
      (Arith.getHash P H op : ScopeM Op Blk σ APInt (EvalResult HashCode)) := by
  refine Prog.Follows.bind ((keeps_getKey hP op).mono ?_)
  rintro (key | st) _ rfl <;> exact .ret ⟨rfl, trivial⟩

theorem tidy_arithEquivalent [DecidableEq Op] (hP : P.Verified) (other : Op) :
    TidyMethod P op (fun _ => True)
      (Arith.isEquivalentTo P op other : ScopeM Op Blk σ APInt (EvalResult Bool)) := by
  rw [Arith.isEquivalentTo]
  split
  · exact ⟨rfl, trivial⟩
  · refine Prog.Follows.bind ((keeps_getKey hP op).mono ?_)
    rintro (key | st) _ rfl
    · refine Prog.Follows.bind ((keeps_getKey hP other).mono ?_)
      rintro (key' | st) _ rfl <;> exact .ret ⟨rfl, trivial⟩
    · exact .ret ⟨rfl, trivial⟩

variable {lhs rhs : Value Op Blk} {t : Ty}

theorem tidy_evaluateKnown (hP : P.Verified) (h : P.ArithShape op lhs rhs t)
    (fn : APInt → APInt → APInt) :
    TidyMethod P op (fun l => l.length = P.numResults op)
      (evaluateKnown P fn op : ScopeM Op Blk σ APInt (List (Answer APInt))) := by
  have hone : ∀ a : Answer APInt, [a].length = P.numResults op := fun a => by
    simp [Program.numResults, h.results]
  rw [evaluateKnown, h.operands]
  refine keeps_query (hP.valid op lhs (by simp [h.operands])) fun a => ?_
  rcases a with (_ | v) | st
  · exact .ret ⟨rfl, hone _⟩
  · refine keeps_query (hP.valid op rhs (by simp [h.operands])) fun b => ?_
    rcases b with (_ | w) | st
    · exact .ret ⟨rfl, hone _⟩
    · exact keeps_allocate fun u => .ret ⟨rfl, hone _⟩
    · exact .ret ⟨rfl, hone _⟩
  · exact .ret ⟨rfl, hone _⟩

theorem tidy_evaluateMul (hP : P.Verified) (h : P.ArithShape op lhs rhs t) :
    TidyMethod P op (fun l => l.length = P.numResults op)
      (evaluateMul P op : ScopeM Op Blk σ APInt (List (Answer APInt))) := by
  have hone : ∀ a : Answer APInt, [a].length = P.numResults op := fun a => by
    simp [Program.numResults, h.results]
  rw [evaluateMul, h.operands]
  refine keeps_query (hP.valid op lhs (by simp [h.operands])) fun a => ?_
  rcases a with v | st
  · simp only
    split
    · exact .ret ⟨rfl, hone _⟩
    · refine keeps_query (hP.valid op rhs (by simp [h.operands])) fun b => ?_
      rcases b with w | st
      · simp only
        split
        · exact .ret ⟨rfl, hone _⟩
        · rcases v with _ | v <;> rcases w with _ | w
          · exact .ret ⟨rfl, hone _⟩
          · exact .ret ⟨rfl, hone _⟩
          · exact .ret ⟨rfl, hone _⟩
          · exact keeps_allocate fun u => .ret ⟨rfl, hone _⟩
      · exact .ret ⟨rfl, hone _⟩
  · exact .ret ⟨rfl, hone _⟩

end Arith

/-! ## The `scf.for` model -/

section SCF

open SCF

variable {P : Program Op Blk} {op : Op} {lb ub step : Value Op Blk}
  {inits yields : List (Value Op Blk)} {body : Blk} {t : Ty}

theorem keeps_queryKnown {values : List (Value Op Blk)} (hv : ∀ v ∈ values, P.Valid v)
    {o : OpenScopes Blk} :
    (queryKnown values : ScopeM Op Blk σ APInt (Except Exit (List (EvalValue APInt)))).Keeps
      (scopeProtocol P op) (fun r o' => o' = o ∧ ∀ l, r = .ok l → l.length = values.length) o := by
  induction values with
  | nil =>
    refine .ret ⟨rfl, ?_⟩
    rintro l ⟨⟩
    rfl
  | cons v values ih =>
    refine keeps_query (hv v List.mem_cons_self) fun a => ?_
    rcases a with (_ | w) | st
    · exact .ret ⟨rfl, by simp⟩
    · refine Prog.Follows.bind ((ih fun u hu => hv u (List.mem_cons_of_mem _ hu)).mono ?_)
      rintro (exit | rest) _ ⟨rfl, hr⟩
      · exact .ret ⟨rfl, by simp⟩
      · refine .ret ⟨rfl, ?_⟩
        rintro l ⟨⟩
        simp [hr rest rfl]
    · exact .ret ⟨rfl, by simp⟩

theorem keeps_queryYields {values : List (Value Op Blk)} (hv : ∀ v ∈ values, P.Valid v)
    {o : OpenScopes Blk} :
    (queryYields values : ScopeM Op Blk σ APInt (Except Signal (List (Answer APInt)))).Keeps
      (scopeProtocol P op) (fun r o' => o' = o ∧ ∀ l, r = .ok l → l.length = values.length) o := by
  induction values with
  | nil =>
    refine .ret ⟨rfl, ?_⟩
    rintro l ⟨⟩
    rfl
  | cons v values ih =>
    refine keeps_query (hv v List.mem_cons_self) fun a => ?_
    rcases a with slot | st
    · refine Prog.Follows.bind ((ih fun u hu => hv u (List.mem_cons_of_mem _ hu)).mono ?_)
      rintro (st | rest) _ ⟨rfl, hr⟩
      · exact .ret ⟨rfl, by simp⟩
      · refine .ret ⟨rfl, ?_⟩
        rintro l ⟨⟩
        simp [hr rest rfl]
    · exact .ret ⟨rfl, by simp⟩

theorem length_everyResult (a : Answer APInt) : (everyResult P op a).length = P.numResults op := by
  simp [everyResult]

/-- The body is bound once an iteration, with one answer for every argument. -/
theorem keeps_iterate (hP : P.Verified) (h : P.LoopShape op lb ub step inits body yields t)
    (isUnsigned : Bool) (ubv stepv : APInt) (fuel : ℕ) {iv : APInt} {carried : List (Answer APInt)}
    (hc : carried.length = P.numResults op) {o : OpenScopes Blk} (ho : body ∉ o.blocks) :
    (iterate P op body isUnsigned ubv stepv fuel iv carried :
      ScopeM Op Blk σ APInt (List (Answer APInt))).Keeps (scopeProtocol P op)
        (fun l o' => o' = o ∧ l.length = P.numResults op) o := by
  have hown : (P.parentRegion body).op = op := by
    rw [Program.parentRegion_of_loopBody (Program.loopBody_eq_some.mpr h.regions)]
  have hyields : (P.yieldedValues body).length = P.numResults op := by
    have hlen := congrArg List.length h.yieldTypes
    rw [h.yieldedValues, Program.numResults]
    simpa using hlen
  induction fuel generalizing iv carried with
  | zero => exact .ret ⟨rfl, length_everyResult _⟩
  | succ fuel ih =>
    rw [iterate]
    split
    · refine keeps_declareCost fun charged => ?_
      cases charged with
      | false => exact .ret ⟨rfl, length_everyResult _⟩
      | true =>
        refine keeps_allocate fun induction => ?_
        refine keeps_withBinding hown ho (by simp [Program.numArgs, h.args, hc, Program.numResults])
          ((keeps_queryYields fun v hv => hP.valid_yield hv).mono ?_)
        rintro (st | yielded) _ ⟨rfl, hr⟩
        · exact ⟨rfl, .ret ⟨rfl, length_everyResult _⟩⟩
        · refine ⟨rfl, ?_⟩
          simp only
          split
          · exact .ret ⟨rfl, length_everyResult _⟩
          · exact ih ((hr yielded rfl).trans hyields)
    · exact .ret ⟨rfl, hc⟩

theorem tidy_evaluateLoop (hP : P.Verified) (h : P.LoopShape op lb ub step inits body yields t)
    (isUnsigned : Bool) :
    TidyMethod P op (fun l => l.length = P.numResults op)
      (SCF.evaluate P op isUnsigned : ScopeM Op Blk σ APInt (List (Answer APInt))) := by
  have hvalid : ∀ v ∈ lb :: ub :: step :: inits, P.Valid v := h.operands ▸ hP.valid op
  have hinits : inits.length = P.numResults op := by
    have hlen := congrArg List.length h.initTypes
    simpa [Program.numResults] using hlen
  have hexit : ∀ a : Answer APInt, (everyResult P op a).length = P.numResults op :=
    length_everyResult
  have hbody : P.loopBody op = some body := Program.loopBody_eq_some.mpr h.regions
  rw [SCF.evaluate, h.operands, hbody]
  refine Prog.Follows.bind ((keeps_queryKnown fun v hv => hvalid v ?_).mono ?_)
  · simp only [List.mem_cons, List.not_mem_nil, or_false] at hv ⊢
    tauto
  rintro ((st | _) | l) _ ⟨rfl, hl⟩
  · exact .ret ⟨rfl, hexit _⟩
  · exact .ret ⟨rfl, hexit _⟩
  · obtain ⟨lbv, ubv, stepv, rfl⟩ := List.length_eq_three.mp (hl l rfl)
    refine Prog.Follows.bind ((keeps_queryKnown fun v hv => hvalid v (by simp [hv])).mono ?_)
    rintro ((st | _) | carried) _ ⟨rfl, hc⟩
    · exact .ret ⟨rfl, hexit _⟩
    · exact .ret ⟨rfl, hexit _⟩
    · simp only
      split
      · exact .ret ⟨rfl, hexit _⟩
      · refine keeps_withFreeze ((keeps_iterate hP h isUnsigned _ _ _ ?_ ?_).mono ?_)
        · simp [hc carried rfl, hinits]
        · simp [OpenScopes.none]
        · rintro l' _ ⟨rfl, hl'⟩
          exact ⟨rfl, rfl, hl'⟩

end SCF

/-! ## The models -/

variable [DecidableEq Op] [DecidableEq Blk]

/-- **The shipped models are tidy**, on a verified program. -/
theorem shipped_tidy [Fintype Op] {P : Program Op Blk} (hP : P.Verified) (H : HashFns Op Blk)
    (mem : Malloc) : (shipped P H mem : Setup Op Blk σ APInt).Tidy := by
  have hpure : ∀ op r, TidyMethod P op (fun _ => True)
      (pure r : ScopeM Op Blk σ APInt (EvalResult Bool)) := fun _ _ => ⟨rfl, trivial⟩
  intro op model hm
  have harith : P.isArith op = true → ∃ lhs rhs t, P.ArithShape op lhs rhs t := hP.arith op
  simp only [shipped, shippedModels] at hm
  split at hm
  · next hk =>
    obtain ⟨lhs, rhs, t, h⟩ := harith (by simp [Program.isArith, hk])
    obtain rfl := Option.some.inj hm
    exact ⟨hpure op _, tidy_arithHash H hP, tidy_arithEquivalent hP, tidy_evaluateKnown hP h _⟩
  · next hk =>
    obtain ⟨lhs, rhs, t, h⟩ := harith (by simp [Program.isArith, hk])
    obtain rfl := Option.some.inj hm
    exact ⟨hpure op _, tidy_arithHash H hP, tidy_arithEquivalent hP, tidy_evaluateKnown hP h _⟩
  · next hk =>
    obtain ⟨lhs, rhs, t, h⟩ := harith (by simp [Program.isArith, hk])
    obtain rfl := Option.some.inj hm
    exact ⟨hpure op _, tidy_arithHash H hP, tidy_arithEquivalent hP, tidy_evaluateMul hP h⟩
  · next hk =>
    obtain ⟨lb, ub, step, inits, body, yields, t, h⟩ := hP.loop op (by simp [Program.isLoop, hk])
    obtain rfl := Option.some.inj hm
    exact ⟨hpure op _, tidy_getDefaultHash H hP, tidy_isDefaultEquivalent hP,
      tidy_evaluateLoop hP h _⟩
  · simp at hm

end MlirInterpreter
