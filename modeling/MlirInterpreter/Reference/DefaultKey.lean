import MlirInterpreter.Engine.Scripted
import MlirInterpreter.Reference.Congruence
import Mathlib.Data.Nat.Pairing

/-!
# Operations with equal default keys have equal values

`isDefaultEquivalent` in a scope that answers every query by the reference evaluation.  Values are
compared through handles: two handles are equal if they have the same address or the same content,
so all that is needed of the addresses is that one address has one content (`AnswersReference`).
-/

set_option autoImplicit false

namespace MlirInterpreter

variable {Op Blk : Type} [DecidableEq Op] [DecidableEq Blk] [Fintype Op] {P : Program Op Blk}
  {env : Env Blk} {script : Script Op Blk APInt} {lhs rhs : Op}

/-- Every query is answered by the reference evaluation in `env`. -/
structure AnswersReference (P : Program Op Blk) (env : Env Blk) (script : Script Op Blk APInt) :
    Prop where
  completes : ∀ bindings v, ∃ a, script.answer bindings v = .completed a ∧
    a.map EvalValue.payload = reference P env v
  stored : script.Stored

/-- What a comparison of values says in the environment `env`. -/
def referenceJudging (P : Program Op Blk) (env : Env Blk) :
    Judging Op Blk (ScriptState Op Blk APInt) where
  Inv _ := True
  Rel _ _ := True
  Stops _ _ _ := True
  yes x y := reference P env x = reference P env y
  no _ _ := True

theorem AnswersReference.isEqual (h : AnswersReference P env script)
    {bindings bindings' : List (Blk × List (Answer APInt))} {x y : Value Op Blk}
    {a b : EvalValue APInt} (ha : script.answer bindings x = .known a)
    (hb : script.answer bindings' y = .known b) (heq : a.isEqual b = true) :
    reference P env x = reference P env y := by
  obtain ⟨a', ha', hx⟩ := h.completes bindings x
  obtain ⟨b', hb', hy⟩ := h.completes bindings' y
  obtain rfl : a' = some a := EvalResult.completed.inj (ha'.symm.trans ha)
  obtain rfl : b' = some b := EvalResult.completed.inj (hb'.symm.trans hb)
  have hpayload : a.payload = b.payload := by
    rw [EvalValue.isEqual_iff] at heq
    exact heq.elim (h.stored _ _ x y a b ha hb) id
  rw [← hx, ← hy, Option.map_some, Option.map_some, hpayload]

theorem referenceJudging_kept (h : AnswersReference P env script)
    (asks : Value Op Blk → Value Op Blk → Prop) :
    (referenceJudging P env).Kept script.logic isEvaluatedValueEqual asks where
  refl _ _ := trivial
  trans _ _ _ _ _ := trivial
  inv _ _ _ := trivial
  stops _ _ _ _ _ _ := trivial
  check s x y _ _ := by
    have ends : ∀ b, (b = true → reference P env x = reference P env y) → ∀ t,
        (referenceJudging P env).Ends s (reference P env x = reference P env y) True
          (.completed b) t := by
      rintro (_ | _) hb t
      · exact ⟨trivial, trivial⟩
      · exact ⟨trivial, hb rfl⟩
    rw [isEvaluatedValueEqual]
    split
    · next hxy => exact script.logic.wp_pure (ends true (fun _ => by rw [hxy]) s)
    · refine script.wp_query s ?_
      cases hx : script.answer s.bindings x with
      | signal st => exact script.logic.wp_pure trivial
      | completed a =>
        cases a with
        | none => exact script.logic.wp_pure (ends false (by simp) _)
        | some a =>
          refine script.wp_query _ ?_
          cases hy : script.answer (s.record (.query x)).bindings y with
          | signal st => exact script.logic.wp_pure trivial
          | completed b =>
            cases b with
            | none => exact script.logic.wp_pure (ends false (by simp) _)
            | some b => exact script.logic.wp_pure (ends _ (h.isEqual hx hy) _)

/-- **Default-equivalent operations compute the same results.**  In every environment, if
`isDefaultEquivalent` completes with `true` when every query is answered by the reference
evaluation, then corresponding results have the same reference value, known or unknown. -/
theorem isDefaultEquivalent_sound (hP : P.Verified) (hA : P.Acyclic) (henv : env.WellTyped P)
    (hscript : AnswersReference P env script) (s : ScriptState Op Blk APInt)
    (h : (script.run (isDefaultEquivalent P lhs rhs) s).1 = .completed true) (i : ℕ) :
    reference P env (.result lhs i) = reference P env (.result rhs i) := by
  have hends :
      (referenceJudging P env).Ends s _ _ (script.run (isDefaultEquivalent P lhs rhs) s).1 _ :=
    wp_isEquivalentTo_reference (L := script.logic) env hP
      (referenceJudging_kept hscript _) trivial
  rw [h] at hends
  exact hends.2 (fun x y hxy => hxy) hA henv i

/-- Answers by the reference evaluation, with an address for every value. -/
def referenceScript {m n : ℕ} (P : Program (Fin m) (Fin n)) : Script (Fin m) (Fin n) APInt where
  answer
    | _, .result op i => .completed ((reference P .empty (.result op i)).map fun a =>
        ⟨Nat.pair op i, .cache, a⟩)
    | _, .arg _ _ => .unknown
  address _ := 0

theorem referenceScript_answersReference {m n : ℕ} (P : Program (Fin m) (Fin n)) :
    AnswersReference P .empty (referenceScript P) where
  completes _ v := by
    cases v with
    | result op i =>
      refine ⟨_, rfl, ?_⟩
      cases reference P .empty (.result op i) with
      | none => rfl
      | some a => rfl
    | arg b i => exact ⟨none, rfl, rfl⟩
  stored _ _ v w a b ha hb hab := by
    cases v with
    | arg c i => cases ha
    | result op i =>
      cases w with
      | arg c i => cases hb
      | result op' i' =>
        obtain ⟨a, hx, rfl⟩ := Option.map_eq_some_iff.mp (EvalResult.completed.inj ha)
        obtain ⟨b, hy, rfl⟩ := Option.map_eq_some_iff.mp (EvalResult.completed.inj hb)
        obtain ⟨hop, rfl⟩ := Nat.pair_eq_pair.mp hab
        obtain rfl := Fin.ext hop
        exact Option.some.inj (hx.symm.trans hy)

/-- The loops of `twinProgram`, whose bounds are two constants. -/
theorem isDefaultEquivalent_sound_twinProgram :
    reference twinProgram .empty (.result 3 0) = reference twinProgram .empty (.result 7 0) :=
  isDefaultEquivalent_sound twinProgram_verified twinProgram_acyclic .empty
    (referenceScript_answersReference _) .empty (by decide +kernel) 0

end MlirInterpreter
