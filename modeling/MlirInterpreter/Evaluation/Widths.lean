import MlirInterpreter.Dialects.Typed
import MlirInterpreter.Evaluation.Queries

/-!
# Answers are well typed

In every state any queries of a verified program go through, every known answer is an `IntEvalValue`
of the width of its type: what is returned, memoized, bound, carried by a loop or kept in a slot of
the cache.  So no evaluation fails an assertion about widths.
-/

set_option autoImplicit false

namespace MlirInterpreter

open Recorded

variable {Op Blk σ : Type} [DecidableEq Op] [DecidableEq Blk] [Fintype Op] {P : Program Op Blk}
  {H : HashFns Op Blk} {mem : Malloc} {past : List (State Op Blk σ APInt)}
    {s : State Op Blk σ APInt}

/-- From the state `s` on, the evaluation of `op` by its model does with assertions what it does
without them, for every bound on the nesting of queries that suffices, as the one the engine has
left does. -/
def AssertionsHold (E : Setup Op Blk σ APInt) (op : Op) (model : OpModel Op Blk σ APInt)
    (s : State Op Blk σ APInt) : Prop :=
  ∀ depth, Fintype.card Op < depth + s.engine.active.card →
    runScope E (evaluate E (compute E (Fintype.card Op + 1) depth))
      (shippedEvaluate? E.program op) s =
      (some <$> runScope E (evaluate E (compute E (Fintype.card Op + 1) depth)) model.evaluate) s

/-- **Answers are well typed, so no width assertion fails.**  Of a verified program, with or without
cycles, every state of a history and of one more query is well typed, every evaluation that starts
in one of them keeps the assertions of its arithmetic, and the query ends with an answer of the type
of the value asked for. -/
theorem answers_well_typed (hP : P.Verified) (h : History (shipped P H mem) past s)
    (engine budget : ℕ) {value : Value Op Blk} (hv : P.Valid value) :
    (∀ t ∈ past ++ (query (shipped P H mem) engine budget value s).visited,
        WellTyped (shipped P H mem) IntOfType t ∧
          ∀ op model, t.log.head? = some (.evaluating op) →
            (shippedModels P H).op op = some model → AssertionsHold (shipped P H mem) op model t) ∧
      ∃ a outcome s', (query (shipped P H mem) engine budget value s).outcome =
        .ok ((a, outcome), s') ∧ a.OfType IntOfType (P.valueType value) := by
  have htyped : (shipped P H mem : Setup Op Blk σ APInt).Typed IntOfType := shipped_typed H hP mem
  have hconfined : (shipped P H mem : Setup Op Blk σ APInt).models.Confined :=
    shippedModels_confined P H
  obtain ⟨hguar, hanswer⟩ := wellTyped_history htyped hconfined h engine budget value
  have hhandles := handles_never_outlive_query hconfined h engine budget value
  refine ⟨fun t ht => ⟨(hguar t ht).typed, fun op model hlog hm depth hd => ?_⟩, ?_⟩
  · exact evaluate_run_eq htyped hconfined hm (fun _ _ hrel => hrel.1) (agree_evaluate H hP hm)
      (hguar t ht) (hhandles t ht) hlog hd
  · obtain ⟨-, a, outcome, s', hr, -⟩ := query_ends False hP h engine budget hv (by simp)
    exact ⟨a, outcome, s', hr, hanswer (a, outcome) s' hr⟩

/-- Does the event start an evaluation of the operation? -/
def Event.evaluates (op : Op) : Event Op Blk APInt → Bool
  | .evaluating op' => op' = op
  | _ => false

/-- The loop is evaluated, without a failing assertion, and an `index` is answered. -/
theorem answers_well_typed_loopProgram :
    (∃ t ∈ (query loopSetup 0 100 (.result 8 0) (State.init ())).visited,
        WellTyped loopSetup IntOfType t ∧
          AssertionsHold loopSetup 3 (SCF.forOpEval loopProgram .numbered 3 false) t) ∧
      ∃ a outcome s', (query loopSetup 0 100 (.result 8 0) (State.init ())).outcome =
        .ok ((a, outcome), s') ∧ a.OfType IntOfType (some .index) := by
  have heval : ((query loopSetup 0 100 (.result 8 0) (State.init ())).visited.any fun t =>
      t.log.head?.any (Event.evaluates 3)) = true := by decide +kernel
  have hinit : History loopSetup [State.init ()] (State.init ()) := .init ()
  have hvalid : loopProgram.Valid (.result 8 0) := by decide
  obtain ⟨hstates, hends⟩ := answers_well_typed loopProgram_verified hinit 0 100 hvalid
  refine ⟨?_, hends⟩
  obtain ⟨t, ht, hlog⟩ := List.any_eq_true.mp heval
  obtain ⟨e, hhead, hevent⟩ := (Option.any_eq_true _ _).mp hlog
  cases e <;> simp only [Event.evaluates, Bool.false_eq_true, decide_eq_true_eq] at hevent
  subst hevent
  obtain ⟨htyped, hassert⟩ := hstates t (List.mem_append_right _ ht)
  exact ⟨t, ht, htyped, hassert 3 _ hhead rfl⟩

end MlirInterpreter
