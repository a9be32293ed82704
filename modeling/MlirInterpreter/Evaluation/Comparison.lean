import MlirInterpreter.Equivalence.Operands
import MlirInterpreter.Evaluation.Methods

/-!
# The default cache key

The specifications of `getDefaultHash` and `isDefaultEquivalent`.  A comparison that completes with
`true` has compared the operands of every pair a matching records (`Matching.OperandsAgree`), one
after the other or, for a commutative operation, by pairing them up; `Matching.congruence` does the
rest.
-/

set_option autoImplicit false

namespace MlirInterpreter

open Recorded

variable {Op Blk σ : Type} [DecidableEq Op] [DecidableEq Blk] [Fintype Op] {P : Program Op Blk}
  {H : HashFns Op Blk} {mem : Malloc} {exact : Prop}
  {ask : Value Op Blk → EngineM Op Blk σ APInt (Answer APInt)} {s t : State Op Blk σ APInt}

/-! ## Hashing -/

theorem wp_hashEvaluatedValue (h : Running P exact ask s) {op : Op} {v : Value Op Blk}
    (hv : P.Valid v) (hdep : v ∈ P.dependencies op) :
    wp (evalTheory P exact).contract (runScope (shipped P H mem) ask (hashEvaluatedValue H v)) s
      fun r t => EvalMoves P exact s t ∧ ResultOk P t op (fun _ => True) r := by
  refine wp_scope_query h hv fun a t ht ha => ?_
  rcases a with (_ | v) | st
  · exact Prog.wp_run_ret ⟨ht, trivial⟩
  · exact Prog.wp_run_ret ⟨ht, trivial⟩
  · exact Prog.wp_run_ret ⟨ht, ha.signal_below hdep⟩

theorem wp_hashOperands (h : Running P exact ask s) {op : Op} {l : List (Value Op Blk)}
    (hl : ∀ v ∈ l, P.Valid v ∧ v ∈ P.dependencies op) (commutative : Bool) (hash sum : HashCode) :
    wp (evalTheory P exact).contract (runScope (shipped P H mem) ask
      (hashOperands H (hashEvaluatedValue H) commutative l hash sum)) s fun r t =>
      EvalMoves P exact s t ∧ ResultOk P t op (fun _ => True) r := by
  induction l generalizing s hash sum with
  | nil => exact Prog.wp_run_ret ⟨.refl h.inv, trivial⟩
  | cons v l ih =>
    obtain ⟨hv, hdep⟩ := hl v (by simp)
    rw [hashOperands]
    refine Prog.wp_run_bind (wp_mono (wp_hashEvaluatedValue h hv hdep) ?_)
    rintro r t ⟨ht, hr⟩
    have rest : ∀ hash sum, wp (evalTheory P exact).contract (runScope (shipped P H mem) ask
        (hashOperands H (hashEvaluatedValue H) commutative l hash sum)) t fun r u =>
        EvalMoves P exact s u ∧ ResultOk P u op (fun _ => True) r := fun hash sum =>
      wp_mono (ih (h.moves ht) (fun w hw => hl w (by simp [hw])) hash sum) fun r u hu =>
        ⟨EvalMoves.trans ht hu.1, hu.2⟩
    rcases r with operandHash | st
    · simp only
      split <;> exact rest _ _
    · exact Prog.wp_run_ret ⟨ht, hr⟩

theorem wp_getDefaultHash (hP : P.Verified) (h : Running P exact ask s) (op : Op) :
    wp (evalTheory P exact).contract (runScope (shipped P H mem) ask (getDefaultHash P H op)) s
      fun r t => EvalMoves P exact s t ∧ ResultOk P t op (fun _ => True) r := by
  rw [getDefaultHash, computeHash]
  refine Prog.wp_run_bind (wp_mono (wp_hashOperands h (fun v hv =>
    ⟨hP.valid op v hv, P.mem_dependencies hv⟩) _ _ _) fun r t ht => ?_)
  rcases r with ⟨hash, sum⟩ | st
  · exact Prog.wp_run_ret ⟨ht.1, trivial⟩
  · exact Prog.wp_run_ret ⟨ht.1, ht.2⟩

/-! ## Comparing -/

theorem wp_isEvaluatedValueEqual (h : Running P exact ask s) {x y : Value Op Blk}
    (hx : P.Valid x) (hy : P.Valid y) :
    wp (evalTheory P exact).contract
      (runScope (shipped P H mem) ask (isEvaluatedValueEqual x y)) s fun r t =>
      EvalMoves P exact s t ∧ (r = .completed true → P.Acyclic →
        reference P s.engine.env x = reference P s.engine.env y) := by
  rw [isEvaluatedValueEqual]
  split
  · next hxy => exact Prog.wp_run_ret ⟨.refl h.inv, fun _ _ => by rw [hxy]⟩
  · refine wp_scope_query h hx fun a t ht ha => ?_
    rcases a with (_ | v) | st
    · exact Prog.wp_run_ret ⟨ht, by simp⟩
    · refine wp_scope_query (h.moves ht) hy fun b u hu hb => ?_
      rw [EvalMoves.env ht] at hb
      have htu := EvalMoves.trans ht hu
      rcases b with (_ | w) | st
      · exact Prog.wp_run_ret ⟨htu, by simp⟩
      · refine Prog.wp_run_ret ⟨htu, fun heq hA => ?_⟩
        rw [ha.known_eq hA, hb.known_eq hA, Arith.payload_eq_of_isEqual htu.inv.handles
          ((ha.usable v rfl).moves hu) (hb.usable w rfl) (EvalResult.completed.inj heq)]
      · exact Prog.wp_run_ret ⟨htu, by simp⟩
    · exact Prog.wp_run_ret ⟨ht, by simp⟩

/-- The logic of the methods of a model. -/
def scopeLogic (C : Contract (State Op Blk σ APInt) Abort) (E : Setup Op Blk σ APInt)
    (ask : Value Op Blk → EngineM Op Blk σ APInt (Answer APInt)) :
    MonadLogic (ScopeM Op Blk σ APInt) (State Op Blk σ APInt) where
  wp p s Q := wp C (runScope E ask p) s Q
  wp_pure h := Prog.wp_run_ret h
  wp_bind h := Prog.wp_run_bind h
  wp_mono h hQ := wp_mono h hQ

/-- What a comparison of evaluated values says in the environment `env`. -/
def evalJudging (P : Program Op Blk) (exact : Prop)
    (ask : Value Op Blk → EngineM Op Blk σ APInt (Answer APInt)) (env : Env Blk) :
    Judging Op Blk (State Op Blk σ APInt) where
  Inv s := Running P exact ask s ∧ s.engine.env = env
  Rel s t := EvalMoves P exact s t ∧ Running P exact ask t ∧ t.engine.env = env
  Stops s _ t := EvalMoves P exact s t
  yes x y := P.Acyclic → reference P env x = reference P env y
  no _ _ := True

theorem evalJudging_kept (asks : Value Op Blk → Value Op Blk → Prop)
    (hasks : ∀ x y, asks x y → P.Valid x ∧ P.Valid y) (env : Env Blk) :
    (evalJudging P exact ask env).Kept
      (scopeLogic (evalTheory P exact).contract (shipped P H mem) ask)
        isEvaluatedValueEqual asks where
  refl s hs := ⟨.refl hs.1.inv, hs⟩
  trans s t u h h' := ⟨EvalMoves.trans h.1 h'.1, h'.2⟩
  inv s t h := h.2
  stops s t u st h h' := EvalMoves.trans h.1 h'
  check s x y hs hxy := by
    obtain ⟨hx, hy⟩ := hasks x y hxy
    refine wp_mono (wp_isEvaluatedValueEqual hs.1 hx hy) ?_
    rintro ((_ | _) | st) t ⟨ht, hyes⟩
    · exact ⟨⟨ht, hs.1.moves ht, (EvalMoves.env ht).trans hs.2⟩, trivial⟩
    · exact ⟨⟨ht, hs.1.moves ht, (EvalMoves.env ht).trans hs.2⟩, hs.2 ▸ hyes rfl⟩
    · exact ht

/-- **Operations with equal default keys have equal results.** -/
theorem wp_isDefaultEquivalent (hP : P.Verified) (h : Running P exact ask s) (op other : Op) :
    wp (evalTheory P exact).contract
      (runScope (shipped P H mem) ask (isDefaultEquivalent P op other)) s fun r t =>
      EvalMoves P exact s t ∧ (r = .completed true → SameResults P t op other) := by
  rw [isDefaultEquivalent]
  refine wp_mono (wp_isEquivalentTo_reference (s := s) s.engine.env hP
    (evalJudging_kept _ (fun _ _ hxy => hxy) s.engine.env) ⟨h, rfl⟩) ?_
  rintro ((_ | _) | st) t ht
  · exact ⟨ht.1.1, by simp⟩
  · refine ⟨ht.1.1, fun _ hA i => ?_⟩
    rw [ht.1.2.2]
    exact ht.2 (fun x y hxy => hxy hA) hA (h.inv.frames.typed hA) i
  · exact ⟨ht, by simp⟩

end MlirInterpreter
