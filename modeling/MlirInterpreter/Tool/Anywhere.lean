import MlirInterpreter.Dialects.Blind
import MlirInterpreter.Engine.Replay
import MlirInterpreter.Tool.Report

/-!
# A report does not depend on the allocator

What the tool prints has no addresses in it, and with blind models it does not depend on them
either: over any two allocators the tool ends with the same report, or with the same failure
(`run_anywhere`).
-/

set_option autoImplicit false

namespace MlirInterpreter.Tool

open Recorded

variable {Op Blk σ π : Type} [DecidableEq Blk]
  {E : Setup Op Blk σ π} {mem : Malloc} {F : Frontend Op π} {s t : State Op Blk σ π}

/-- Answers that say the same are printed alike. -/
theorem contents_same {a b : Answer π} (h : a.Same b) : contents F b = contents F a := by
  cases h with
  | signal status => rfl
  | unknown => rfl
  | known h => simp only [contents, Option.map_some, h]

variable [DecidableEq Op]

/-- The computations end with the same value, in corresponding contexts, or stop for the same
reason. -/
abbrev SameEnd {α : Type} (m m' : EngineM Op Blk σ π α) (s t : State Op Blk σ π) : Prop :=
  Together (fun (_ : Renaming π) a b s' t' => b = a ∧ s'.Renamed t') .empty m m' s t

theorem SameEnd.bind {α β : Type} {m m' : EngineM Op Blk σ π α} {f g : α → EngineM Op Blk σ π β}
    (hm : SameEnd m m' s t) (hf : ∀ a s' t', s'.Renamed t' → SameEnd (f a) (g a) s' t') :
    SameEnd (m >>= f) (m' >>= g) s t := by
  refine Together.bind hm ?_
  rintro L a b s' t' - ⟨rfl, hst⟩
  exact (hf b s' t' hst).world fun _ _ _ _ _ _ h => ⟨L, le_rfl, h⟩

variable [Fintype Op]

theorem sameEnd_reportResult (hE : E.Blind) (hst : s.Renamed t) (budget : ℕ) (r : Op × ℕ) :
    SameEnd (reportResult E F budget r) (reportResult (E.withMalloc mem) F budget r) s t := by
  obtain ⟨L, hst⟩ := hst
  have hrow : Together (fun (_ : Renaming π) a b s' t' => b = a ∧ s'.Renamed t') L
      (reportResult E F budget r) (reportResult (E.withMalloc mem) F budget r) s t := by
    refine (renamed_query hE mem hst 0 0 budget _).bind ?_
    rintro L' ⟨a, outcome⟩ ⟨b, outcome'⟩ s' t' - ⟨⟨hsame, houtcome⟩, hst', -⟩
    obtain rfl : outcome' = outcome := houtcome
    refine .pure ⟨?_, hst'⟩
    rw [contents_same hsame]
  exact hrow.world fun _ _ _ _ _ _ h => ⟨.empty, le_rfl, h⟩

theorem sameEnd_reportResults (hE : E.Blind) (hst : s.Renamed t) (budget : ℕ) (l : List (Op × ℕ)) :
    SameEnd (reportResults E F budget l) (reportResults (E.withMalloc mem) F budget l) s t := by
  induction l generalizing s t with
  | nil => exact .pure ⟨rfl, hst⟩
  | cons r l ih =>
    refine (sameEnd_reportResult hE hst budget r).bind fun row s₁ t₁ hst₁ => ?_
    cases row with
    | none => exact .pure ⟨rfl, hst₁⟩
    | some row => exact (ih hst₁).bind fun rows s₂ t₂ hst₂ => .pure ⟨rfl, hst₂⟩

/-- The tool ends alike in corresponding contexts. -/
theorem sameEnd_run (hE : E.Blind) (hst : s.Renamed t) (budget : ℕ) (main? : Option Op) :
    SameEnd (run E F budget main?) (run (E.withMalloc mem) F budget main?) s t := by
  rw [run, run]
  cases getEntryPoint E.program main? with
  | error failure => exact .pure ⟨rfl, hst⟩
  | ok main =>
    refine (sameEnd_reportResults hE hst budget _).bind fun rows s' t' hst' => ?_
    cases rows with
    | none => exact .pure ⟨rfl, hst'⟩
    | some rows => exact .pure ⟨rfl, hst'⟩

/-- **A report does not depend on the allocator.**  Over any two allocators, the tool with the
shipped models ends with the same text, with the same failure or at the same assertion. -/
theorem run_anywhere {σ : Type} (P : Program Op Blk) (H : HashFns Op Blk) (F : Frontend Op APInt)
    (mem mem' : Malloc) (w : σ) (budget : ℕ) (main? : Option Op) :
    (run (shipped P H mem) F budget main? (State.init w)).outcome.map Prod.fst =
      (run (shipped P H mem') F budget main? (State.init w)).outcome.map Prod.fst := by
  have hsame : SameEnd (run (shipped P H mem) F budget main?)
      (run (shipped P H mem') F budget main?) (State.init w) (State.init w) :=
    sameEnd_run (shipped_blind P H mem) (State.Renamed.init w) budget main?
  cases hsame with
  | stop h h' => rw [h, h']
  | ends h h' _ hq => rw [h, h', hq.1]; rfl

end MlirInterpreter.Tool
