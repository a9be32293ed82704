import MlirInterpreter.Dialects.Tidy
import MlirInterpreter.Engine.Passes
import MlirInterpreter.Refinement.Queries
import MlirInterpreter.Tool.Report

/-!
# What a report says of the program

With the shipped models a report can be read back, line by line, and what it says is right
(`report_right`): a name is that of a result, a number is the value of the result under the
reference semantics, and a hit has a value.
-/

set_option autoImplicit false

namespace MlirInterpreter.Tool

open Recorded

section Outcomes

variable {Op Blk σ π : Type}
  {E : Setup Op Blk σ π} {s : State Op Blk σ π}

/-- Nothing is asked of the runs but their results. -/
def unconstrained : Recorded.Contract (State Op Blk σ π) Abort :=
  ⟨fun _ => True, fun _ => True, fun _ => True⟩

/-- A constant whose attribute is not cached has no outcome. -/
theorem wp_constant_outcome (hattr : ∀ attr model, E.models.attr attr = some model →
    model.isCacheable = false) (op : Op) :
    wp unconstrained (evaluateConstant E op) s fun r _ => r.2 = .none := by
  rw [evaluateConstant]
  cases hconstant : E.program.constantAttr op with
  | none => exact wp_pure rfl
  | some attr =>
    cases hm : E.models.attr attr with
    | none =>
      simp only [hm]
      exact wp_pure rfl
    | some model =>
      simp only [hm, hattr attr model hm, Bool.false_eq_true, if_false]
      cases model.toEvalValue with
      | none => exact wp_pure rfl
      | some payload =>
        exact wp_bind (wp_bind (wp_read (wp_bind (wp_record fun _ => ⟨trivial,
          wp_pure (wp_pure rfl)⟩))))

variable [DecidableEq Op] [DecidableEq Blk] [Fintype Op]

theorem wp_query_outcome (hattr : ∀ attr model, E.models.attr attr = some model →
    model.isCacheable = false) {op : Op} (hm : E.models.op op = none) (engine budget idx : ℕ) :
    wp unconstrained (query E engine budget (.result op idx)) s fun r _ => r.2 = .none := by
  refine wp_query (fun _ => trivial) fun _ => ⟨trivial, ?_⟩
  refine wp_bind (wp_require (fun _ => trivial) fun _ => ?_)
  simp only [hm]
  refine wp_bind (wp_mono (wp_constant_outcome hattr op) fun r t ht => wp_pure ?_)
  exact wp_handOut (fun _ => ⟨fun _ => trivial, fun _ _ => ⟨trivial, ht⟩⟩) fun v _ _ =>
    ⟨trivial, fun _ => trivial, fun _ _ => ⟨trivial, ht⟩⟩

/-- A hit has a value, if no attribute is cached. -/
theorem isKnown_of_hit (hattr : ∀ attr model, E.models.attr attr = some model →
    model.isCacheable = false) {past : List (State Op Blk σ π)} (h : History E past s)
    {engine budget : ℕ} {op : Op} {idx : ℕ} (hv : E.program.Valid (.result op idx))
    {a : Answer π} {s' : State Op Blk σ π}
    (hr : (query E engine budget (.result op idx) s).outcome = .ok ((a, .hit), s')) :
    a.isKnown = true := by
  cases hm : E.models.op op with
  | none =>
    obtain ⟨-, hq, -⟩ := wp_query_outcome hattr hm engine budget idx fun _ _ => trivial
    cases hq _ _ hr
  | some model =>
    obtain ⟨-, -, -, copy, -, -, -, rfl, -⟩ := query_hit h (by rw [hm]; rfl) hv hr
    rfl

end Outcomes

/-! ## Findings -/

section Findings

variable {Op Blk σ : Type} [DecidableEq Op] [DecidableEq Blk] [Fintype Op] {P : Program Op Blk}
  {H : HashFns Op Blk} {mem : Malloc} {F : Frontend Op APInt}

/-- The width of a result. -/
def resultWidth (P : Program Op Blk) (r : Op × ℕ) : ℕ :=
  ((P.valueType (.result r.1 r.2)).bind Ty.width?).getD 0

/-- What a line about the result `r` says is right. -/
structure Finding.Right (P : Program Op Blk) (F : Frontend Op APInt) (r : Op × ℕ) (f : Finding) :
    Prop where
  name : readSourceName (F.definition r.1) f.name.toList = some r.2
  known : ∀ bits, f.answer = .completed (some (some bits)) →
    reference P Env.empty (.result r.1 r.2) = some bits
  /-- A known value is printed. -/
  printed : f.answer ≠ .completed (some none)
  unknown : P.LoopFree → f.answer = .completed none →
    reference P Env.empty (.result r.1 r.2) = none
  signal : ∀ st, f.answer = .signal st → st = .exhausted
  hit : f.outcome = .hit → ∃ bits, f.answer = .completed (some (some bits))

/-- What a query of a result is told is right. -/
theorem right_of_query (hP : P.Verified) (hA : P.Acyclic) (hF : F.int? = some)
    {past : List (State Op Blk σ APInt)} {s t : State Op Blk σ APInt}
    (h : History (shipped P H mem) past s) {budget : ℕ} {r : Op × ℕ}
    (hv : P.Valid (.result r.1 r.2)) {a : Answer APInt} {outcome : CacheOutcome}
    (hr : (query (shipped P H mem) 0 budget (.result r.1 r.2) s).outcome = .ok ((a, outcome), t))
    {name : String} (hname : nameOf F P r = some name) :
    Finding.Right P F r ⟨name, contents F a, outcome⟩ := by
  obtain ⟨-, a', outcome', t', hr', hok⟩ := query_ends False hP h 0 budget hv (by simp)
  obtain ⟨⟨rfl, rfl⟩, rfl⟩ : (a' = a ∧ outcome' = outcome) ∧ t' = t := by
    simpa using hr'.symm.trans hr
  have hattr : ∀ attr model, (shipped (σ := σ) P H mem).models.attr attr = some model →
      model.isCacheable = false := by
    rintro (value | n) model hm
    · exact (Option.some.inj hm) ▸ rfl
    · cases hm
  have hcontents : ∀ v, contents F (.known v) = .completed (some (some v.payload)) := fun v => by
    simp [contents, hF]
  refine ⟨readSourceName_getSourceName hv hname, fun bits h => ?_, fun h => ?_, fun hL h => ?_,
    fun st h => ?_, fun hhit => ?_⟩
  · obtain ⟨v, rfl, rfl⟩ : ∃ v, a' = .known v ∧ v.payload = bits := by
      rcases a' with (_ | v) | st
      · simp [contents] at h
      · exact ⟨v, rfl, by simpa [hcontents] using h⟩
      · simp [contents] at h
    exact (hok.agrees hA).known v rfl
  · rcases a' with (_ | v) | st
    · simp [contents] at h
    · simp [hcontents] at h
    · simp [contents] at h
  · obtain rfl : a' = .unknown := by
      rcases a' with (_ | v) | st
      · rfl
      · simp [hcontents] at h
      · simp [contents] at h
    obtain ⟨b, outcome, u, hu, hq, -⟩ := query_queried hP hA hL ‹_› 0 budget hv
    obtain ⟨⟨rfl, -⟩, -⟩ : (b = .unknown ∧ outcome = outcome') ∧ u = t' := by
      simpa using hu.symm.trans hr
    exact (hq.payload rfl).symm
  · obtain rfl : a' = .signal st := by
      rcases a' with (_ | v) | st'
      · simp [contents] at h
      · simp [hcontents] at h
      · simpa [contents] using h
    cases st with
    | exhausted => rfl
    | needsOrder => exact absurd rfl hok.order
    | cycle => exact absurd rfl (hok.cycle hA)
  · obtain rfl : outcome' = .hit := hhit
    have hknown := isKnown_of_hit hattr h hv hr
    rcases a' with (_ | v) | st
    · cases hknown
    · exact ⟨v.payload, hcontents v⟩
    · cases hknown

/-- A value under the reference semantics has the width of its type. -/
theorem Finding.Right.fits (hP : P.Verified) {r : Op × ℕ} {f : Finding} (hf : f.Right P F r)
    (hv : P.Valid (.result r.1 r.2)) (hname : nameOf F P r = some f.name) :
    f.Fits (resultWidth P r) where
  cell := cell_getSourceName hname
  width_eq bits h := by
    have htype := reference_hasType hP .empty hv bits (hf.known bits h)
    rw [resultWidth, htype, Option.getD_some]

/-- Two lists that are read from one correspond. -/
theorem forall₂_of_map {X A B A' B' : Type} {f : X → A'} {g : X → B'} {p : A → A'} {q : B → B'}
    {R : A → B → Prop} {xs : List X} {l : List A} {m : List B} (hl : xs.map f = l.map p)
    (hm : xs.map g = m.map q) (h : ∀ x ∈ xs, ∀ a b, f x = p a → g x = q b → R a b) :
    List.Forall₂ R l m := by
  induction xs generalizing l m with
  | nil =>
    obtain rfl : l = [] := List.map_eq_nil_iff.mp hl.symm
    obtain rfl : m = [] := List.map_eq_nil_iff.mp hm.symm
    exact .nil
  | cons x xs ih =>
    obtain ⟨a, l, rfl, ha, hl⟩ := List.map_eq_cons_iff.mp hl.symm
    obtain ⟨b, m, rfl, hb, hm⟩ := List.map_eq_cons_iff.mp hm.symm
    exact .cons (h x (by simp) a b ha.symm hb.symm)
      (ih hl.symm hm.symm fun y hy => h y (List.mem_cons_of_mem _ hy))

/-- **A report is right.**  For a verified program without use-def cycles and the shipped models,
whatever the budget: what the tool prints can be read back, one line for every result in `@main` in
the order of the walk.  A line names its result, a number in it is the value of the result under the
reference semantics, and so is `unknown` if there are no loops; the only signal is that the budget
was used up, and a hit has a value. -/
theorem report_right (hP : P.Verified) (hA : P.Acyclic) (hF : F.int? = some) (w : σ) (budget : ℕ)
    {main : Op} {text : String} {t : State Op Blk σ APInt}
    (hrun : (run (shipped P H mem) F budget (some main) (State.init w)).outcome =
      .ok (.ok text, t)) :
    ∃ fs, readReport ((reported F P main).map (resultWidth P)) text = some fs ∧
      List.Forall₂ (Finding.Right P F) (reported F P main) fs := by
  obtain ⟨xs, fs, rfl, hsession, hasked, hfound⟩ := run_session (shipped_tidy hP H mem) hrun
  have hright : List.Forall₂ (fun r f => f.Right P F r ∧ f.Fits (resultWidth P r))
      (reported F P main) fs := by
    refine forall₂_of_map hasked hfound fun x hx r f hr hf => ?_
    cases x with
    | clear => cases hr
    | query engine b value reply left =>
      obtain ⟨rfl, rfl, rfl⟩ : engine = 0 ∧ b = budget ∧ value = .result r.1 r.2 := by
        simpa [asked?] using hr
      obtain ⟨name, hname, rfl⟩ := Option.map_eq_some_iff.mp hf
      obtain ⟨past, u, u', hu, hv, hreply⟩ := hsession.query_of_mem (.init w) hx
      have hright := right_of_query hP hA hF hu hv hreply hname
      exact ⟨hright, hright.fits hP hv hname⟩
  refine ⟨fs, readReport_printReport F.columnWidth ?_, hright.imp fun _ _ h => h.1⟩
  exact List.forall₂_map_left_iff.mpr (hright.imp fun _ _ h => h.2)

/-- The report of `sumProgram`. -/
def sumReport : String := Columns.unlines [
  "value   evaluated   cache    status",
  "%0      0           —        completed",
  "%1      5           —        completed",
  "%2      5           miss     completed",
  "%3      5           hit      completed"]

/-- What the tool takes from elsewhere for `sumProgram`. -/
abbrev sumFrontend : Frontend (Fin 5) APInt := .numbered sumProgram some

/-- The second sum is found in the cache. -/
theorem report_right_sumProgram : ∃ fs,
    readReport ((reported sumFrontend sumProgram 4).map (resultWidth sumProgram)) sumReport =
        some fs ∧
      List.Forall₂ (Finding.Right sumProgram sumFrontend) (reported sumFrontend sumProgram 4)
        fs := by
  have hrun : ((run sumSetup sumFrontend 10 (some 4) (State.init ())).value?.bind
      Except.toOption) = some sumReport := by decide +kernel
  obtain ⟨text, htext, hok⟩ := Option.bind_eq_some_iff.mp hrun
  obtain ⟨t, ht⟩ := Run.outcome_of_value? htext
  cases text with
  | error failure => cases hok
  | ok text =>
    obtain rfl : text = sumReport := Option.some.inj hok
    exact report_right sumProgram_verified sumProgram_acyclic rfl () 10 ht

end Findings

end MlirInterpreter.Tool
