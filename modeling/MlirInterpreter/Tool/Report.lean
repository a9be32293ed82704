import MlirInterpreter.Engine.Discipline
import MlirInterpreter.Engine.Session
import MlirInterpreter.Tool.Names

/-!
# The report of the interpreter tool

`run` of `interpreter.cpp`, after the module was parsed: it walks over the operations of `@main` in
preorder, queries every result in a new context, and prints a row for each.

What the tool takes from libraries is a parameter: what the parser recorded about definitions, which
operations a walk visits, and how many columns a text takes.  The tool stops at a result that
belongs to no group, since it asserts that there is none.

A report is a session with the context (`run_session`), and there is one exactly if there is a
`@main` with a body in which every result belongs to a group (`run_reports_iff`).
-/

set_option autoImplicit false

namespace MlirInterpreter.Tool

open Recorded

variable {Op Blk σ π : Type}

/-- What the tool takes from elsewhere. -/
structure Frontend (Op π : Type) where
  /-- `AsmParserState::getOpDef`. -/
  definition : Op → OperationDefinition
  /-- `Operation::walk<WalkOrder::PreOrder>`: the operations that it visits, in order. -/
  walk : Op → List Op
  /-- `llvm::sys::unicode::columnWidthUTF8`. -/
  columnWidth : String → ℤ
  /-- `dyn_cast<IntEvalValue>`. -/
  int? : π → Option APInt

/-- The operations in the regions of an operation, in order. -/
def regionOps (P : Program Op Blk) (op : Op) : List Op := (P.regions op).flatten.flatMap P.ops

/-- Operations with numbers for names, walks over what is nested twice at most, and a display as
wide as its texts are long. -/
def Frontend.numbered {m n : ℕ} (P : Program (Fin m) (Fin n)) (int? : π → Option APInt) :
    Frontend (Fin m) π where
  definition op := ⟨[⟨0, .numbered op⟩], by simp⟩
  walk op := op :: (regionOps P op).flatMap fun o => o :: regionOps P o
  columnWidth text := text.length
  int? := int?

/-- How the tool can end without a report. -/
inductive Failure
  | diagnostic (text : String)
  /-- "every result belongs to a group" -/
  | unnamedResult
deriving DecidableEq

/-- `FunctionOpInterface::isExternal`: the function has no body. -/
def isExternal (P : Program Op Blk) (function : Op) : Bool :=
  ((P.regions function).headD []).isEmpty

/-- `getEntryPoint`, given what the module's symbol table has for `main`. -/
def getEntryPoint (P : Program Op Blk) (main? : Option Op) : Except Failure Op :=
  match main? with
  | none => .error (.diagnostic "no 'func.func @main' entry point")
  | some main =>
    if isExternal P main then .error (.diagnostic "entry point has no body") else .ok main

/-- An answer without the handle of its value. -/
def contents (F : Frontend Op π) : Answer π → EvalResult (Option (Option APInt))
  | .completed value => .completed (value.map fun v => F.int? v.payload)
  | .signal status => .signal status

variable (E : Setup Op Blk σ π) (F : Frontend Op π)

/-- The results of the operations, in the order in which they are reported. -/
def reported (P : Program Op Blk) (main : Op) : List (Op × ℕ) :=
  (F.walk main).flatMap fun op => (List.range (P.numResults op)).map fun idx => (op, idx)

/-- The name of a result. -/
def nameOf (P : Program Op Blk) (r : Op × ℕ) : Option String :=
  getSourceName (F.definition r.1) (P.numResults r.1) r.2

section

variable [DecidableEq Op] [DecidableEq Blk] [Fintype Op]

/-- Query a result, and make a row of its answer. -/
def reportResult (budget : ℕ) (r : Op × ℕ) : EngineM Op Blk σ π (Option Row) := do
  let (answer, outcome) ← query E 0 budget (.result r.1 r.2)
  return (nameOf F E.program r).map fun name => Finding.row ⟨name, contents F answer, outcome⟩

/-- The rows of some results. -/
def reportResults (budget : ℕ) : List (Op × ℕ) → EngineM Op Blk σ π (Option (List Row))
  | [] => return some []
  | r :: rest => do
    match ← reportResult E F budget r with
    | none => return none
    | some row => return (← reportResults budget rest).map (row :: ·)

/-- `run`, in a new context. -/
def run (budget : ℕ) (main? : Option Op) : EngineM Op Blk σ π (Except Failure String) := do
  match getEntryPoint E.program main? with
  | .error failure => return .error failure
  | .ok main =>
    match ← reportResults E F budget (reported F E.program main) with
    | none => return .error .unnamedResult
    | some rows => return .ok (printReport F.columnWidth rows)

end

/-- Every result that is reported is a value of the program. -/
theorem valid_of_mem_reported {P : Program Op Blk} {main : Op} {r : Op × ℕ}
    (h : r ∈ reported F P main) : P.Valid (.result r.1 r.2) := by
  obtain ⟨op, -, hr⟩ := List.mem_flatMap.mp h
  obtain ⟨idx, hidx, rfl⟩ := List.mem_map.mp hr
  exact List.mem_range.mp hidx

/-- The parser recorded a group that the result belongs to. -/
def Grouped (r : Op × ℕ) : Prop := ∃ group ∈ (F.definition r.1).resultGroups, group.startIndex ≤ r.2

/-- A result has a name if it belongs to a group. -/
theorem isSome_nameOf {P : Program Op Blk} {r : Op × ℕ} :
    (nameOf F P r).isSome = true ↔ Grouped F r := getSourceName_isSome

theorem nameOf_eq_none {P : Program Op Blk} {r : Op × ℕ} (h : ¬ Grouped F r) :
    nameOf F P r = none := by
  rw [← isSome_nameOf F (P := P)] at h
  exact Option.not_isSome_iff_eq_none.mp h

/-! ## A report is a session -/

/-- What a client reads about a query of a result that has a name. -/
def finding? (P : Program Op Blk) : Exchange Op Blk π → Option Finding
  | .query _ _ (.result op idx) (answer, outcome) _ =>
    (nameOf F P (op, idx)).map fun name => ⟨name, contents F answer, outcome⟩
  | _ => none

/-- The engine, the budget and the value of a query. -/
def asked? : Exchange Op Blk π → Option (ℕ × ℕ × Value Op Blk)
  | .query engine budget value _ _ => some (engine, budget, value)
  | .clear => none

variable {E F} [DecidableEq Op] [DecidableEq Blk] [Fintype Op]

/-- The query of one result, and its row. -/
theorem reportResult_spec (hE : E.Tidy) {past : List (State Op Blk σ π)} {s : State Op Blk σ π}
    (h : History E past s) (budget : ℕ) {r : Op × ℕ} (hv : E.program.Valid (.result r.1 r.2)) :
    ∃ answer outcome t,
      (query E 0 budget (.result r.1 r.2) s).outcome = .ok ((answer, outcome), t) ∧
      (reportResult E F budget r s).outcome = .ok ((nameOf F E.program r).map fun name =>
        Finding.row ⟨name, contents F answer, outcome⟩, t) := by
  obtain ⟨⟨answer, outcome⟩, t, hr, -⟩ := query_idle hE h 0 budget hv
  refine ⟨answer, outcome, t, hr, ?_⟩
  rw [reportResult, Rec.bind_of_ok _ hr]
  rfl

/-- The rows of a report are about the queries of a session. -/
theorem reportResults_spec (hE : E.Tidy) {past : List (State Op Blk σ π)} {s : State Op Blk σ π}
    (h : History E past s) (budget : ℕ) {l : List (Op × ℕ)}
    (hl : ∀ r ∈ l, E.program.Valid (.result r.1 r.2)) (hgrouped : ∀ r ∈ l, Grouped F r) :
    ∃ (xs : List (Exchange Op Blk π)) (fs : List Finding) (t : State Op Blk σ π),
      (reportResults E F budget l s).outcome = .ok (some (fs.map Finding.row), t) ∧
      Session E s xs t ∧ xs.map asked? = l.map (fun r => some (0, budget, .result r.1 r.2)) ∧
        xs.map (finding? F E.program) = fs.map some := by
  induction l generalizing past s with
  | nil => exact ⟨[], [], s, rfl, .nil s, rfl, rfl⟩
  | cons r l ih =>
    have hv := hl r (by simp)
    obtain ⟨name, hname⟩ := Option.isSome_iff_exists.mp
      ((isSome_nameOf F (P := E.program)).mpr (hgrouped r (by simp)))
    obtain ⟨answer, outcome, t, hr, hrow⟩ := reportResult_spec (F := F) hE h budget hv
    obtain ⟨xs, fs, u, hrest, hsession, hasked, hfound⟩ := ih (h.query 0 budget _ hv hr)
      (fun r hr => hl r (List.mem_cons_of_mem _ hr))
      fun r hr => hgrouped r (List.mem_cons_of_mem _ hr)
    rw [hname, Option.map_some] at hrow
    refine ⟨_, ⟨name, contents F answer, outcome⟩ :: fs, u, ?_, .query 0 budget _ hv hr hsession,
      ?_, ?_⟩
    · rw [reportResults, Rec.bind_of_ok _ hrow]
      simp only [Rec.bind_of_ok _ hrest]
      rfl
    · simp [asked?, hasked]
    · simp [finding?, hname, hfound]

/-- The tool stops at a result that belongs to no group, after its query. -/
theorem reportResults_ungrouped (hE : E.Tidy) {past : List (State Op Blk σ π)}
    {s : State Op Blk σ π} (h : History E past s) (budget : ℕ) {before : List (Op × ℕ)} {r : Op × ℕ}
    (after : List (Op × ℕ)) (hl : ∀ r' ∈ before ++ [r], E.program.Valid (.result r'.1 r'.2))
    (hgrouped : ∀ r' ∈ before, Grouped F r') (hr : ¬ Grouped F r) :
    ∃ (xs : List (Exchange Op Blk π)) (t : State Op Blk σ π),
      (reportResults E F budget (before ++ r :: after) s).outcome = .ok (none, t) ∧
      Session E s xs t ∧
        xs.map asked? = (before ++ [r]).map fun r => some (0, budget, .result r.1 r.2) := by
  induction before generalizing past s with
  | nil =>
    have hv := hl r (by simp)
    obtain ⟨answer, outcome, t, hquery, hrow⟩ := reportResult_spec (F := F) hE h budget hv
    rw [nameOf_eq_none F hr, Option.map_none] at hrow
    refine ⟨_, t, ?_, .query 0 budget _ hv hquery (.nil t), rfl⟩
    rw [List.nil_append, reportResults, Rec.bind_of_ok _ hrow]
    rfl
  | cons r' before ih =>
    have hv := hl r' (by simp)
    obtain ⟨name, hname⟩ := Option.isSome_iff_exists.mp
      ((isSome_nameOf F (P := E.program)).mpr (hgrouped r' (by simp)))
    obtain ⟨answer, outcome, t, hquery, hrow⟩ := reportResult_spec (F := F) hE h budget hv
    obtain ⟨xs, u, hrest, hsession, hasked⟩ := ih (h.query 0 budget _ hv hquery)
      (fun r hr => hl r (List.mem_cons_of_mem _ hr))
      fun r hr => hgrouped r (List.mem_cons_of_mem _ hr)
    rw [hname, Option.map_some] at hrow
    refine ⟨_, u, ?_, .query 0 budget _ hv hquery hsession, by simp [asked?, hasked]⟩
    rw [List.cons_append, reportResults, Rec.bind_of_ok _ hrow]
    simp only [Rec.bind_of_ok _ hrest]
    rfl

theorem run_of_body {main : Op} (hbody : isExternal E.program main = false) (budget : ℕ) :
    run E F budget (some main) = (do
      match ← reportResults E F budget (reported F E.program main) with
      | none => return .error .unnamedResult
      | some rows => return .ok (printReport F.columnWidth rows)) := by
  simp [run, getEntryPoint, hbody]

omit [DecidableEq Op] [Fintype Op] in
/-- The first result that belongs to no group. -/
theorem exists_first_ungrouped {l : List (Op × ℕ)} (h : ∃ r ∈ l, ¬ Grouped F r) :
    ∃ before r after, l = before ++ r :: after ∧ (∀ r' ∈ before, Grouped F r') ∧ ¬ Grouped F r := by
  induction l with
  | nil => simp at h
  | cons r l ih =>
    by_cases hr : Grouped F r
    · obtain ⟨before, r', after, rfl, hbefore, hr'⟩ := ih (by simpa [hr] using h)
      exact ⟨r :: before, r', after, rfl, by simpa [hr] using hbefore, hr'⟩
    · exact ⟨[], r, l, rfl, by simp, hr⟩

/-- The tool stops at the first result that belongs to no group. -/
theorem run_ungrouped (hE : E.Tidy) (w : σ) (budget : ℕ) {main : Op}
    (hbody : isExternal E.program main = false)
    (h : ∃ r ∈ reported F E.program main, ¬ Grouped F r) :
    ∃ (before : List (Op × ℕ)) (r : Op × ℕ) (after : List (Op × ℕ))
      (xs : List (Exchange Op Blk π)) (t : State Op Blk σ π),
      (run E F budget (some main) (State.init w)).outcome = .ok (.error .unnamedResult, t) ∧
      reported F E.program main = before ++ r :: after ∧ (∀ r' ∈ before, Grouped F r') ∧
      ¬ Grouped F r ∧ Session E (State.init w) xs t ∧
        xs.map asked? = (before ++ [r]).map fun r => some (0, budget, .result r.1 r.2) := by
  obtain ⟨before, r, after, hl, hbefore, hr⟩ := exists_first_ungrouped h
  have hvalid : ∀ r' ∈ before ++ [r], E.program.Valid (.result r'.1 r'.2) := by
    intro r' hr'
    have hmem : r' ∈ reported F E.program main := by
      rw [hl, List.append_cons]
      exact List.mem_append_left after hr'
    exact valid_of_mem_reported F hmem
  obtain ⟨xs, t, hrows, hsession, hasked⟩ :=
    reportResults_ungrouped hE (.init w) budget after hvalid hbefore hr
  refine ⟨before, r, after, xs, t, ?_, hl, hbefore, hr, hsession, hasked⟩
  rw [run_of_body hbody, hl, Rec.bind_of_ok _ hrows]
  rfl

/-- The report, if every result belongs to a group. -/
theorem run_grouped (hE : E.Tidy) (w : σ) (budget : ℕ) {main : Op}
    (hbody : isExternal E.program main = false)
    (h : ∀ r ∈ reported F E.program main, Grouped F r) :
    ∃ (xs : List (Exchange Op Blk π)) (fs : List Finding) (t : State Op Blk σ π),
      (run E F budget (some main) (State.init w)).outcome =
        .ok (.ok (printReport F.columnWidth (fs.map Finding.row)), t) ∧
      Session E (State.init w) xs t ∧
      xs.map asked? =
        (reported F E.program main).map (fun r => some (0, budget, .result r.1 r.2)) ∧
      xs.map (finding? F E.program) = fs.map some := by
  obtain ⟨xs, fs, t, hrows, hrest⟩ := reportResults_spec hE (.init w) budget
    (fun r hr => valid_of_mem_reported F hr) h
  refine ⟨xs, fs, t, ?_, hrest⟩
  rw [run_of_body hbody, Rec.bind_of_ok _ hrows]
  rfl

/-- A report is about the queries of a session, if there is one. -/
theorem run_session (hE : E.Tidy) {w : σ} {budget : ℕ} {main : Op} {text : String}
    {t : State Op Blk σ π}
    (hrun : (run E F budget (some main) (State.init w)).outcome = .ok (.ok text, t)) :
    ∃ (xs : List (Exchange Op Blk π)) (fs : List Finding),
      text = printReport F.columnWidth (fs.map Finding.row) ∧
      Session E (State.init w) xs t ∧
      xs.map asked? =
        (reported F E.program main).map (fun r => some (0, budget, .result r.1 r.2)) ∧
      xs.map (finding? F E.program) = fs.map some := by
  cases hbody : isExternal E.program main with
  | true => simp [run, getEntryPoint, hbody, Rec.pure_apply] at hrun
  | false =>
    by_cases hgrouped : ∀ r ∈ reported F E.program main, Grouped F r
    · obtain ⟨xs, fs, u, hreport, hrest⟩ := run_grouped hE w budget hbody hgrouped
      obtain ⟨rfl, rfl⟩ : printReport F.columnWidth (fs.map Finding.row) = text ∧ u = t := by
        simpa using hreport.symm.trans hrun
      exact ⟨xs, fs, rfl, hrest⟩
    · push Not at hgrouped
      obtain ⟨-, -, -, -, u, hstop, -⟩ := run_ungrouped hE w budget hbody hgrouped
      simp [hstop] at hrun

/-- **How the tool ends.**  With tidy models no assertion of the engine is reached.  There is a
report exactly if there is a `@main` with a body in which every result belongs to a recorded group.
Otherwise the tool ends with the diagnostic about its entry point, or it queries the results up to
the first one that belongs to no group, and stops there. -/
theorem run_reports_iff (hE : E.Tidy) (w : σ) (budget : ℕ) (main? : Option Op) :
    ∃ result t, (run E F budget main? (State.init w)).outcome = .ok (result, t) ∧
      ((∃ text, result = .ok text) ↔
        ∃ main, main? = some main ∧ isExternal E.program main = false ∧
          ∀ r ∈ reported F E.program main, Grouped F r) ∧
      (main? = none → result = .error (.diagnostic "no 'func.func @main' entry point")) ∧
      ∀ main, main? = some main →
        (isExternal E.program main = true →
          result = .error (.diagnostic "entry point has no body")) ∧
        (isExternal E.program main = false →
          (∃ r ∈ reported F E.program main, ¬ Grouped F r) → result = .error .unnamedResult ∧
            ∃ (before : List (Op × ℕ)) (r : Op × ℕ) (after : List (Op × ℕ))
              (xs : List (Exchange Op Blk π)), reported F E.program main = before ++ r :: after ∧
              (∀ r' ∈ before, Grouped F r') ∧ ¬ Grouped F r ∧ Session E (State.init w) xs t ∧
                xs.map asked? =
                  (before ++ [r]).map fun r => some (0, budget, .result r.1 r.2)) := by
  rcases main? with _ | main
  · exact ⟨_, _, rfl, by simp, fun _ => rfl, by simp⟩
  cases hbody : isExternal E.program main with
  | true =>
    refine ⟨.error (.diagnostic "entry point has no body"), State.init w, ?_, by simp [hbody],
      by simp, ?_⟩
    · simp [run, getEntryPoint, hbody, Rec.pure_apply]
    · rintro main' ⟨⟩
      simp [hbody]
  | false =>
    by_cases hgrouped : ∀ r ∈ reported F E.program main, Grouped F r
    · obtain ⟨-, fs, t, hreport, -⟩ := run_grouped hE w budget hbody hgrouped
      refine ⟨_, t, hreport, by simpa [hbody] using hgrouped, by simp, ?_⟩
      rintro main' ⟨⟩
      refine ⟨by simp [hbody], fun _ hsome => ?_⟩
      obtain ⟨r, hr, hungrouped⟩ := hsome
      exact absurd (hgrouped r hr) hungrouped
    · push Not at hgrouped
      obtain ⟨before, r, after, xs, t, hstop, hl, hbefore, hr, hsession, hasked⟩ :=
        run_ungrouped hE w budget hbody hgrouped
      refine ⟨_, t, hstop, by simpa [hbody] using hgrouped, by simp, ?_⟩
      rintro main' ⟨⟩
      exact ⟨by simp [hbody], fun _ _ => ⟨rfl, before, r, after, xs, hl, hbefore, hr, hsession,
        hasked⟩⟩

/-- Operations with numbers for names. -/
theorem run_reports_iff_reentrant : ∃ text t,
    (run reentrantSetup (.numbered loopProgram fun _ => none) 100 (some 9)
      (State.init ())).outcome = .ok (.ok text, t) := by
  obtain ⟨result, t, hrun, hreport, -⟩ := run_reports_iff
    (F := .numbered loopProgram fun _ => none) reentrantSetup_tidy () 100 (some 9)
  obtain ⟨text, rfl⟩ := hreport.mpr ⟨9, rfl, by decide, fun r _ => ⟨⟨0, .numbered r.1⟩,
    List.mem_singleton.mpr rfl, Nat.zero_le _⟩⟩
  exact ⟨text, t, hrun⟩

end MlirInterpreter.Tool
