import MlirInterpreter.Engine.Logic

/-!
# Queries and histories

The rules for the outermost call, `Engine::query`, and for the history of a context:
`History.invariant` is the induction over all sequences of queries and `clearCache` calls, and
`History.evolves` says what holds between any two states of a history, in particular between states
of different queries.
-/

set_option autoImplicit false

namespace MlirInterpreter

open Recorded

variable {Op Blk σ π : Type}

section Rules

variable {C : Contract (State Op Blk σ π) Abort} {E : Setup Op Blk σ π}

theorem wp_handOut {engine : ℕ} {a : Answer π} {s : State Op Blk σ π}
    {Q : Answer π → State Op Blk σ π → Prop} (h0 : a.isKnown = false → Q a s)
    (h1 : ∀ v, a = .known v →
      let r := retain E.mem (.answers engine) s.heap (s.answerCopies engine) v
      let t := (s.retainAnswer engine r).note (.handedOut v r.value)
      C.rely t → C.guar t ∧ Q (.known r.value) t) :
    wp C (handOut E engine a) s Q := by
  rcases a with (_ | v) | st
  · exact wp_pure (h0 rfl)
  · refine wp_bind (wp_read (wp_bind (wp_record fun hr => ?_)))
    obtain ⟨hg, hq⟩ := h1 v rfl hr
    exact ⟨hg, wp_pure hq⟩
  · exact wp_pure (h0 rfl)

variable [DecidableEq Op] [DecidableEq Blk]

theorem wp_query [Fintype Op] {engine budget : ℕ} {value : Value Op Blk}
    {s : State Op Blk σ π} {Q : Answer π × CacheOutcome → State Op Blk σ π → Prop}
    (hbusy : s.engine.queryAllocator.isNone = false → C.abort .queryActive)
    (h : C.rely ((s.beginQuery engine budget).note (.queryStarted engine budget value)) →
      C.guar ((s.beginQuery engine budget).note (.queryStarted engine budget value)) ∧
        wp C (compute E (Fintype.card Op + 1) (Fintype.card Op + 1) value)
          ((s.beginQuery engine budget).note (.queryStarted engine budget value)) fun r t =>
          wp C (handOut E engine r.1) t fun a u =>
            (u.engine.scopesEnded = false → C.abort .leakedScope) ∧
              (u.engine.scopesEnded = true →
                C.rely (u.endQuery.note (.queryEnded engine value a)) →
                C.guar (u.endQuery.note (.queryEnded engine value a)) ∧
                  Q (a, r.2) (u.endQuery.note (.queryEnded engine value a)))) :
    wp C (query E engine budget value) s Q := by
  refine wp_bind (wp_read (wp_bind (wp_require hbusy fun _ => wp_bind (wp_record fun hr => ?_))))
  obtain ⟨hg, hrun⟩ := h hr
  refine ⟨hg, wp_bind (wp_mono hrun ?_)⟩
  rintro ⟨a, outcome⟩ t ht
  refine wp_bind (wp_mono ht ?_)
  rintro b u ⟨hleak, hend⟩
  refine wp_bind
    (wp_read (wp_bind (wp_require hleak fun hclean => wp_bind (wp_record fun hr' => ?_))))
  obtain ⟨hg', hq⟩ := hend hclean hr'
  exact ⟨hg', wp_pure hq⟩

end Rules

/-! ## From one query to the next -/

/-- What holds between an earlier and a later state of one context: between two `clearCache` calls,
the cache only grows. -/
structure Evolves (s s' : State Op Blk σ π) : Prop where
  clears : s.clears ≤ s'.clears
  cache : s.clears = s'.clears → s.cache.Extends s'.cache

theorem Evolves.refl (s : State Op Blk σ π) : Evolves s s := ⟨le_rfl, fun _ => .refl _⟩

theorem Evolves.trans {a b c : State Op Blk σ π} (h : Evolves a b) (h' : Evolves b c) :
    Evolves a c where
  clears := h.clears.trans h'.clears
  cache hac := (h.cache (le_antisymm h.clears (h'.clears.trans hac.ge))).trans
    (h'.cache (le_antisymm h'.clears (hac.ge.trans h.clears)))

theorem Continues.evolves {s s' : State Op Blk σ π} (h : Continues s s') : Evolves s s' :=
  ⟨h.clears.ge, fun _ => h.cache⟩

/-- A write to the state that leaves buckets and entries alone. -/
theorem Evolves.of_eq {s s' : State Op Blk σ π} (hc : s'.clears = s.clears)
    (he : s'.cache.entries = s.cache.entries) (ha : s'.cache.arena = s.cache.arena) :
    Evolves s s' :=
  ⟨hc.ge, fun _ => .of_eq he ha⟩

section Histories

variable [Fintype Op] {E : Setup Op Blk σ π} [DecidableEq Op] [DecidableEq Blk]

/-- Every step of a query is one of the running query, or starts it, hands out its answer or ends
it. -/
theorem steps_query_of {R : State Op Blk σ π → State Op Blk σ π → Prop}
    (hrun : ∀ s t, Continues s t → R s t)
    (hbegin : ∀ s engine budget value,
      R s ((s.beginQuery engine budget).note (.queryStarted engine budget value)))
    (hout : ∀ s engine v r, R s ((s.retainAnswer engine r).note (.handedOut v r.value)))
    (hend : ∀ s engine value a, R s (s.endQuery.note (.queryEnded engine value a)))
    (engine budget : ℕ) (value : Value Op Blk) : Steps R (query E engine budget value) := by
  have require : ∀ c x, Steps R (require c x : EngineM Op Blk σ π Unit) := fun c x =>
    (continuing_require c x).mono hrun
  refine Steps.read_bind fun s => (require _ _ s).bind fun _ s₁ _ => ?_
  refine (StepsAt.write (hbegin s₁ engine budget value)).bind fun _ s₂ _ => ?_
  refine ((continuing_compute _ _ _).mono hrun s₂).bind fun r s₃ _ => ?_
  have handOut : Steps R (handOut E engine r.1) := by
    rcases r.1 with (_ | v) | st
    · exact Steps.pure _
    · exact Steps.read_bind fun s => (StepsAt.write (hout s engine v _)).bind
        fun _ _ _ => StepsAt.pure _ _
    · exact Steps.pure _
  refine (handOut s₃).bind fun a s₄ _ => StepsAt.read_bind ((require _ _ s₄).bind fun _ s₅ _ => ?_)
  exact (StepsAt.write (hend s₅ engine value a)).bind fun _ _ _ => StepsAt.pure _ _

theorem steps_query (engine budget : ℕ) (value : Value Op Blk) :
    Steps Evolves (query E engine budget value) :=
  steps_query_of (fun _ _ => Continues.evolves) (fun _ _ _ _ => Evolves.of_eq rfl rfl rfl)
    (fun _ _ _ _ => Evolves.of_eq rfl rfl rfl) (fun _ _ _ _ => Evolves.of_eq rfl rfl rfl)
    engine budget value

/-- A query adds to the log. -/
theorem query_log {engine budget : ℕ} {value : Value Op Blk} {s s' : State Op Blk σ π}
    {r : Answer π × CacheOutcome} (hr : (query E engine budget value s).outcome = .ok (r, s')) :
    ∃ l, s'.log = l ++ s.log := by
  let R : State Op Blk σ π → State Op Blk σ π → Prop := fun a b => a.log <:+ b.log
  have hsteps := steps_query_of (E := E) (R := R) (fun _ _ h => h.log)
    (fun _ _ _ _ => List.suffix_cons _ _) (fun _ _ _ _ => List.suffix_cons _ _)
    (fun _ _ _ _ => List.suffix_cons _ _) engine budget value s
  obtain ⟨l, hl⟩ : R s s' := Chain.rel (R := R) (fun _ => List.suffix_refl _)
    (fun _ _ _ => List.IsSuffix.trans) (hsteps.2 r s' hr)
  exact ⟨l, hl.symm⟩

omit [DecidableEq Op] [DecidableEq Blk] [Fintype Op] in
theorem steps_clearCache : Steps Evolves (clearCache : EngineM Op Blk σ π Unit) :=
  Steps.write fun _ => ⟨Nat.le_succ _, fun h => absurd h (Nat.ne_of_lt (Nat.lt_succ_self _))⟩

/-- The induction over a history whose states `rely` may be assumed of: `J` holds between queries,
and `K` in all states. -/
theorem History.invariant_of_rely {rely J K : State Op Blk σ π → Prop}
    (hinit : ∀ w, J (State.init w) ∧ K (State.init w))
    (hquery : ∀ s engine budget value, E.program.Valid value → J s →
      (∀ t ∈ (MlirInterpreter.query E engine budget value s).visited, rely t) →
      (∀ t ∈ (MlirInterpreter.query E engine budget value s).visited, K t) ∧
        ∀ r s', (MlirInterpreter.query E engine budget value s).outcome = .ok (r, s') → J s')
    (hclear : ∀ s, J s → J (s.clear.note .cleared) ∧ K (s.clear.note .cleared))
    {past : List (State Op Blk σ π)} {s : State Op Blk σ π} (h : History E past s)
    (hrely : ∀ t ∈ past, rely t) : J s ∧ ∀ t ∈ past, K t := by
  induction h with
  | init w => exact ⟨(hinit w).1, by simpa using (hinit w).2⟩
  | query engine budget value hv _ hr ih =>
    obtain ⟨hjs, hpast⟩ := ih fun t ht => hrely t (List.mem_append_left _ ht)
    obtain ⟨hk, hj⟩ := hquery _ engine budget value hv hjs fun t ht =>
      hrely t (List.mem_append_right _ ht)
    refine ⟨hj _ _ hr, fun t ht => ?_⟩
    rcases List.mem_append.mp ht with ht | ht
    · exact hpast t ht
    · exact hk t ht
  | clear _ hr ih =>
    obtain ⟨hjs, hpast⟩ := ih fun t ht => hrely t (List.mem_append_left _ ht)
    simp only [clearCache, record, Rec.write, Except.ok.injEq, Prod.mk.injEq, true_and] at hr
    subst hr
    refine ⟨(hclear _ hjs).1, fun t ht => ?_⟩
    rcases List.mem_append.mp ht with ht | ht
    · exact hpast t ht
    · simp only [clearCache, record, Rec.write, List.mem_singleton] at ht
      exact ht ▸ (hclear _ hjs).2

/-- The induction over a history: `J` holds between queries, and `K` in all states. -/
theorem History.invariant {J K : State Op Blk σ π → Prop}
    (hinit : ∀ w, J (State.init w) ∧ K (State.init w))
    (hquery : ∀ s engine budget value, E.program.Valid value → J s →
      (∀ t ∈ (MlirInterpreter.query E engine budget value s).visited, K t) ∧
        ∀ r s', (MlirInterpreter.query E engine budget value s).outcome = .ok (r, s') → J s')
    (hclear : ∀ s, J s → J (s.clear.note .cleared) ∧ K (s.clear.note .cleared))
    {past : List (State Op Blk σ π)} {s : State Op Blk σ π} (h : History E past s) :
    J s ∧ ∀ t ∈ past, K t :=
  h.invariant_of_rely hinit
    (fun s engine budget value hv hj _ => hquery s engine budget value hv hj)
      hclear fun _ _ => trivial

omit [DecidableEq Op] [DecidableEq Blk] [Fintype Op] in
/-- A further run extends the past in order. -/
theorem evolves_append {α : Type} {m : EngineM Op Blk σ π α} {past : List (State Op Blk σ π)}
    {s : State Op Blk σ π} (hm : Steps Evolves m)
    (h : past.Pairwise Evolves ∧ ∀ t ∈ past, Evolves t s) :
    (past ++ (m s).visited).Pairwise Evolves := by
  have hp := StepsAt.pairwise (R := Evolves) (fun _ _ _ => Evolves.trans) (hm s)
  rw [List.pairwise_cons] at hp
  exact List.pairwise_append.mpr ⟨h.1, hp.2, fun t ht u hu => (h.2 t ht).trans (hp.1 u hu)⟩

/-- The states of a history are related in order, and all of them to the current one. -/
theorem History.evolves {past : List (State Op Blk σ π)} {s : State Op Blk σ π}
    (h : History E past s) : past.Pairwise Evolves ∧ ∀ t ∈ past, Evolves t s := by
  have step : ∀ {α : Type} {m : EngineM Op Blk σ π α} {past : List (State Op Blk σ π)}
      {s s' : State Op Blk σ π} {a : α}, Steps Evolves m →
      (past.Pairwise Evolves ∧ ∀ t ∈ past, Evolves t s) → (m s).outcome = .ok (a, s') →
      (past ++ (m s).visited).Pairwise Evolves ∧ ∀ t ∈ past ++ (m s).visited, Evolves t s' := by
    intro α m past s s' a hm ih hr
    refine ⟨evolves_append hm ih, fun t ht => ?_⟩
    have hchain := (hm s).2 a s' hr
    rcases List.mem_append.mp ht with ht | ht
    · exact (ih.2 t ht).trans
        (Chain.rel (R := Evolves) Evolves.refl (fun _ _ _ => Evolves.trans) hchain)
    · exact Chain.rel_end (R := Evolves) Evolves.refl (fun _ _ _ => Evolves.trans) hchain t ht
  induction h with
  | init w => exact ⟨by simp, by simpa using Evolves.refl _⟩
  | query engine budget value _ _ hr ih => exact step (steps_query engine budget value) ih hr
  | clear _ hr ih => exact step steps_clearCache ih hr

end Histories

end MlirInterpreter
