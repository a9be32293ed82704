import MlirInterpreter.Evaluation.Sound

/-!
# Queries of the engine with the shipped models

What `evalTheory_sound` means for whole queries, after any history of the context.

* **A query ends** (`query_ends`), with an answer and not with an abort, and it accounts for its
  budget.
* **Known answers are right** (`known_answers_right`), and unknown ones are unless a binding makes
  one stale that the query had memoized before (`unknown_answers_right`).
* **No cycle is reported** in a program that has none (`acyclic_never_cycle`).
* **Bindings are disciplined** and gone after the query (`binding_discipline`).
-/

set_option autoImplicit false

namespace MlirInterpreter

open Recorded

variable {Op Blk σ : Type} [DecidableEq Op] [DecidableEq Blk] [Fintype Op] {P : Program Op Blk}
  {H : HashFns Op Blk} {mem : Malloc} {exact : Prop} {s t : State Op Blk σ APInt}

/-- An engine at rest, over a cache that is right. -/
structure AtRest (P : Program Op Blk) (s : State Op Blk σ APInt) : Prop where
  queryAllocator : s.engine.queryAllocator = none
  frames : s.engine.frames = []
  bindings : ∀ key, s.engine.bindings.lookup key = none
  freezes : s.engine.freezes = 0
  active : s.engine.active = ∅
  memo : ∀ v, s.memo v = none
  blocks : openBlocks P s.log = some []
  slots : P.Acyclic → ∀ (e : ℕ) (entry : CacheEntry Op APInt) (i : ℕ) v,
    s.cache.arena[e]? = some entry → entry.results[i]? = some (some (.known v)) →
    reference P Env.empty (.result entry.op i) = some v.payload

omit [DecidableEq Op] [Fintype Op] in
/-- Without frames and bindings the environment is empty, and all of it is in order. -/
theorem FramesInv.of_empty {engine : Engine Op Blk APInt} (hf : engine.frames = [])
    (hb : ∀ key, engine.bindings.lookup key = none) : FramesInv P engine := by
  have hblocks : engine.blocks = [] := by rw [Engine.blocks, hf]; rfl
  refine ⟨by simp [hblocks], by simp [hblocks], fun b i a ha => ?_, by simp [hblocks],
    fun _ b i => ?_,
    fun hne => absurd hf hne⟩
  · simp [hb] at ha
  · rw [Engine.env, hb]
    exact .none _

theorem AtRest.guar (h : AtRest P s) (hl : ∀ e, s.log.head? = some e → ∀ v a, e ≠ .answered v a) :
    EvalGuar P exact s where
  frames := .of_empty h.frames h.bindings
  blocks := by rw [h.blocks, Engine.blocks, h.frames]; rfl
  stored _ _ _ := h.frames
  answered _ v a hva := absurd rfl (hl _ hva v a)

/-- A query starts where its engine rests. -/
theorem AtRest.beginQuery (h : AtRest P s) {engine budget : ℕ} {value : Value Op Blk}
    (hr : EvalRely
      P exact ((s.beginQuery engine budget).note (.queryStarted engine budget value))) :
    EvalInv P exact ((s.beginQuery engine budget).note (.queryStarted engine budget value)) where
  handles := hr.handles.store
  cache := hr.cache
  frames := .of_empty h.frames h.bindings
  memo := ⟨fun v a hv => absurd (hv.symm.trans (h.memo v)) (by simp),
    fun _ _ v a hv => absurd (hv.symm.trans (h.memo v)) (by simp)⟩
  slots := h.slots
  blocks := by
    have hblocks :
        ((s.beginQuery engine budget).note (.queryStarted engine budget value)).engine.blocks
        = [] := by simp [State.note, State.beginQuery, Engine.blocks, h.frames]
    rw [hblocks]
    exact h.blocks

/-- What the answer of a query says. -/
structure QueryOk (P : Program Op Blk) (exact : Prop) (budget : ℕ) (value : Value Op Blk)
    (a : Answer APInt) (s s' : State Op Blk σ APInt) : Prop where
  rest : AtRest P s'
  agrees : P.Acyclic → Agrees exact a (reference P Env.empty value)
  exhausted : a = .signal .exhausted → s'.engine.remaining = 0
  order : a ≠ .signal .needsOrder
  cycle : P.Acyclic → a ≠ .signal .cycle
  work : work s'.log + s'.engine.remaining = work s.log + budget
  charges : charges s'.log + s'.engine.remaining = charges s.log + budget

/-- The end of a query, in the state `u` that its evaluation has led to. -/
theorem queryOk_end {u : State Op Blk σ APInt} {engine budget : ℕ} {value : Value Op Blk}
    {a : Answer APInt} {reach : Op → Prop} (h : AtRest P s)
    (hrel : EvalRel ((s.beginQuery engine budget).note (.queryStarted engine budget value)) u)
    (hcont : Continues ((s.beginQuery engine budget).note (.queryStarted engine budget value)) u)
    (hinv : EvalInv P exact u) (ha : AnswerOk P exact u (reference P Env.empty value) reach a)
    {t : State Op Blk σ APInt} (ht : t.engine = u.engine) (hc : t.cache.arena = u.cache.arena)
    (hlog : openBlocks P t.log = openBlocks P u.log) (hwork : work t.log = work u.log)
    (hcharges : charges t.log = charges u.log) {b : Answer APInt}
    (hb : (b.isKnown = false → b = a) ∧ ∀ v, b = .known v →
      ∃ w, a = .known w ∧ w.payload = v.payload) :
    t.engine.scopesEnded = true ∧
      QueryOk P exact budget value b s (t.endQuery.note (.queryEnded engine value b)) := by
  have hframes : t.engine.frames = [] := by
    have hblocks := hrel.blocks
    rw [ht]
    simpa [Engine.blocks, State.note, State.beginQuery, h.frames] using hblocks
  have hbindings : ∀ key, t.engine.bindings.lookup key = none := fun key => by
    rw [ht, hrel.bindings key]
    exact h.bindings key
  have hfreezes : t.engine.freezes = 0 := by
    rw [ht, hrel.freezes]
    exact h.freezes
  have hactive : t.engine.active = ∅ := by
    rw [ht, hrel.active]
    exact h.active
  have hne : ∀ st, b = .signal st → a = .signal st := fun st hst => by
    rw [← hb.1 (by simp [hst, Answer.isKnown]), hst]
  refine ⟨Engine.scopesEnded_iff.mpr ⟨hframes, hbindings, hfreezes⟩,
    ⟨rfl, hframes, hbindings, hfreezes,
    hactive, fun v => by simp [State.memo, State.note, State.endQuery], ?_, ?_⟩, fun hA => ?_,
    fun hst => ?_, fun hst => ha.signal _ (hne _ hst), fun hA hst => ?_, ?_, ?_⟩
  · have hblocks := hinv.blocks
    rw [← ht, Engine.blocks, hframes] at hblocks
    exact hlog.trans hblocks
  · exact hc ▸ hinv.slots
  · refine ⟨fun v hv => ?_, fun he hu => ?_⟩
    · obtain ⟨w, hw, hpay⟩ := hb.2 v hv
      rw [← hpay]
      exact (ha.agrees hA).known w hw
    · exact (ha.agrees hA).unknown he (hb.1 (by simp [hu, Answer.isKnown]) ▸ hu)
  · have hrem : u.engine.remaining = 0 := ha.signal _ (hne _ hst)
    exact (congrArg Engine.remaining ht).trans hrem
  · -- No operation is being evaluated outside of the query.
    obtain ⟨o, ho, -⟩ := ha.signal _ (hne _ hst) hA
    rw [← ht, hactive] at ho
    simp at ho
  · have h₁ := hrel.work
    have h₂ : t.engine.remaining = u.engine.remaining := congrArg Engine.remaining ht
    simp only [State.note, State.endQuery, State.beginQuery,
      work_cons (e := Event.queryEnded engine value b) rfl,
      work_cons (e := Event.queryStarted engine budget value) rfl] at h₁ ⊢
    omega
  · calc charges (t.endQuery.note (.queryEnded engine value b)).log +
          (t.endQuery.note (.queryEnded engine value b)).engine.remaining
        = charges t.log + t.engine.remaining := rfl
      _ = charges u.log + u.engine.remaining := by rw [hcharges, ht]
      _ = charges s.log + budget := hcont.charged

/-- A query keeps the contract of the shipped models. -/
theorem evalTheory_query (exact : Prop) (hP : P.Verified) (h : AtRest P s) (engine budget : ℕ)
    {value : Value Op Blk} (hv : P.Valid value) :
    wp (evalTheory P exact).contract (query (shipped P H mem) engine budget value) s
      fun r t => QueryOk P exact budget value r.1 s t := by
  refine wp_query (fun hbusy => by simp [h.queryAllocator] at hbusy) fun hr => ?_
  have hinv := h.beginQuery hr
  refine ⟨hinv.guar (e := .queryStarted engine budget value) rfl (by simp [Event.isStore])
    (by simp), ?_⟩
  refine wp_mono (wp_stepsAt Continues.refl (fun _ _ _ => Continues.trans)
    (continuing_compute _ _ _ _)
    ((evalTheory_sound hP).wp_compute (Nat.lt_succ_self _) hinv hv trivial (by omega))) ?_
  rintro ⟨a, outcome⟩ u ⟨⟨hu, hrel, hans⟩, hcont⟩
  have hempty : u.engine.env = Env.empty := by
    rw [hrel.env]
    exact hinv.frames.env_eq_empty h.frames
  have hans : AnswerOk P exact u (reference P Env.empty value) (Reaches P value) a := hempty ▸ hans
  let C : Contract (State Op Blk σ APInt) Abort := (evalTheory P exact).contract
  -- The query ends in a state that differs from `u` only in what was handed out.
  have finish : ∀ (t : State Op Blk σ APInt) (b : Answer APInt), t.engine = u.engine →
      t.cache.arena = u.cache.arena → openBlocks P t.log = openBlocks P u.log →
      work t.log = work u.log → charges t.log = charges u.log →
        ((b.isKnown = false → b = a) ∧ ∀ v, b = .known v →
        ∃ w, a = .known w ∧ w.payload = v.payload) →
      (t.engine.scopesEnded = false → C.abort .leakedScope) ∧
        (t.engine.scopesEnded = true →
          EvalRely P exact (t.endQuery.note (.queryEnded engine value b)) →
          EvalGuar P exact (t.endQuery.note (.queryEnded engine value b)) ∧
            QueryOk P exact budget value b s (t.endQuery.note (.queryEnded engine value b))) := by
    intro t b ht hc hlog hwork hcharges hb
    obtain ⟨hclean, hok⟩ := queryOk_end h hrel hcont hu hans ht hc hlog hwork hcharges hb
    exact ⟨by simp [hclean], fun _ _ => ⟨hok.rest.guar (by rintro _ ⟨⟩; simp), hok⟩⟩
  refine wp_handOut (fun hunknown => finish u a rfl rfl rfl rfl rfl ⟨fun _ => rfl, fun v hv => ?_⟩)
    fun v hv => ?_
  · simp [hv, Answer.isKnown] at hunknown
  · intro r t hr'
    have hinv' : EvalInv P exact t := hu.of_eq hr' rfl rfl rfl rfl rfl hu.frames.loops rfl
    refine ⟨hinv'.guar (e := .handedOut v r.value) rfl (by simp [Event.isStore]) (by simp),
      finish t _ rfl rfl rfl (work_cons rfl _)
        rfl ⟨by simp [Answer.isKnown], fun w hw => ⟨v, hv, ?_⟩⟩⟩
    obtain rfl : r.value = w := by simpa using hw
    exact ((hr'.handles.handedOut v r.value rfl).2.2).symm

/-! ## Histories -/

section Histories

variable {past : List (State Op Blk σ APInt)}

/-- What the theories of handles and of the cache provide. -/
theorem evalRely_of_history (h : History (shipped P H mem) past s) (engine budget : ℕ)
    (value : Value Op Blk)
    (hfresh : exact → ∀ t ∈ (query (shipped P H mem) engine budget value s).visited,
      NoStaleUnknown P t) :
    ∀ t ∈ (query (shipped P H mem) engine budget value s).visited, EvalRely P exact t := by
  intro t ht
  have hmem := List.mem_append_right past ht
  exact ⟨(handleTheory_history (shippedModels_confined P H) h engine budget value).2 t hmem,
    ((cacheTheory_history h engine budget value).1 t hmem).inv, fun he => hfresh he t ht⟩

/-- Between queries the engine is at rest, and all states keep the contract. -/
theorem evalTheory_history (hP : P.Verified) (h : History (shipped P H mem) past s) :
    AtRest P s ∧ ∀ t ∈ past, EvalGuar P False t := by
  induction h with
  | init w =>
    have hrest : AtRest P (State.init w : State Op Blk σ APInt) := by
      refine ⟨rfl, rfl, ?_, rfl, rfl, ?_, rfl, ?_⟩ <;>
        simp [State.init, State.memo, Engine.idle, EvalCache.empty]
    refine ⟨hrest, fun t ht => ?_⟩
    obtain rfl := List.mem_singleton.mp ht
    exact hrest.guar (by simp [State.init])
  | query engine budget value hv h hr ih =>
    obtain ⟨hg, hq, -⟩ := evalTheory_query False hP ih.1 engine budget hv
      (evalRely_of_history h engine budget value (by simp))
    refine ⟨(hq _ _ hr).rest, fun t ht => ?_⟩
    rcases List.mem_append.mp ht with ht | ht
    · exact ih.2 t ht
    · exact hg t ht
  | clear h hr ih =>
    simp only [clearCache, record, Rec.write, Except.ok.injEq, Prod.mk.injEq, true_and] at hr
    subst hr
    have hrest : AtRest P ((State.clear _).note .cleared) := ⟨ih.1.queryAllocator, ih.1.frames,
      ih.1.bindings, ih.1.freezes, ih.1.active, ih.1.memo, ih.1.blocks, by
        simp [State.note, State.clear, EvalCache.empty]⟩
    refine ⟨hrest, fun t ht => ?_⟩
    rcases List.mem_append.mp ht with ht | ht
    · exact ih.2 t ht
    · simp only [clearCache, record, Rec.write, List.mem_singleton] at ht
      exact ht ▸ hrest.guar (by rintro _ ⟨⟩; simp)

/-- **A query ends**, with an answer that keeps the contract, after any history. -/
theorem query_ends (exact : Prop) (hP : P.Verified) (h : History (shipped P H mem) past s)
    (engine budget : ℕ)
    {value : Value Op Blk} (hv : P.Valid value)
    (hfresh : exact → ∀ t ∈ (query (shipped P H mem) engine budget value s).visited,
      NoStaleUnknown P t) :
    (∀ t ∈ (query (shipped P H mem) engine budget value s).visited, EvalGuar P exact t) ∧
      ∃ a outcome s', (query (shipped P H mem) engine budget value s).outcome =
        .ok ((a, outcome), s') ∧ QueryOk P exact budget value a s s' := by
  obtain ⟨hg, hq, hx⟩ := evalTheory_query exact hP (evalTheory_history hP h).1 engine budget
    hv (evalRely_of_history h engine budget value hfresh)
  refine ⟨hg, ?_⟩
  cases hr : (query (shipped P H mem) engine budget value s).outcome with
  | error x =>
    obtain ⟨hfuel, hrange⟩ := (cacheTheory_history h engine budget value).2 x hr
    exact ((hx x hr).elim hfuel hrange).elim
  | ok r =>
    obtain ⟨⟨a, outcome⟩, s'⟩ := r
    exact ⟨a, outcome, s', rfl, hq _ _ hr⟩

/-- **Known answers are right.**  In a program without use-def cycles, a query that completes with a
known value, after any history, gives the value of the reference evaluation; and in every state of
the history and of the query, a known answer a nested query has just returned is the value under the
current bindings. -/
theorem known_answers_right (hP : P.Verified) (hA : P.Acyclic)
    (h : History (shipped P H mem) past s) (engine budget : ℕ) {value : Value Op Blk}
    (hv : P.Valid value) :
    (∀ v outcome s', (query (shipped P H mem) engine budget value s).outcome =
        .ok ((.known v, outcome), s') → reference P Env.empty value = some v.payload) ∧
      ∀ t ∈ past ++ (query (shipped P H mem) engine budget value s).visited, ∀ u v,
        t.log.head? = some (.answered u (.known v)) →
        reference P t.engine.env u = some v.payload := by
  obtain ⟨hg, a, outcome, s', hr, hok⟩ := query_ends False hP h engine budget hv (by simp)
  refine ⟨fun v outcome' t ht => ?_, fun t ht u v hlog => ?_⟩
  · rw [hr] at ht
    obtain ⟨⟨rfl, -⟩, -⟩ : (a = .known v ∧ outcome = outcome') ∧ s' = t := by simpa using ht
    exact (hok.agrees hA).known v rfl
  · have hguar : EvalGuar P False t := (List.mem_append.mp ht).elim
      ((evalTheory_history hP h).2 t) (hg t)
    exact (hguar.answered hA u _ hlog).known v rfl

/-- A query that completed with a value. -/
theorem query_known {E : Setup Op Blk σ APInt} {engine budget : ℕ} {value : Value Op Blk}
    {x : APInt}
    (h : (query E engine budget value s).value?.map (fun r => r.1.payload?) = some (some x)) :
    ∃ v outcome s', (query E engine budget value s).outcome = .ok ((.known v, outcome), s') ∧
      v.payload = x := by
  obtain ⟨⟨a, outcome⟩, ha, hx⟩ := Option.map_eq_some_iff.mp h
  obtain ⟨s', hs'⟩ := Run.outcome_of_value? ha
  rcases a with (_ | v) | st
  · simp [Answer.payload?] at hx
  · exact ⟨v, outcome, s', hs', by simpa using hx⟩
  · simp [Answer.payload?] at hx

/-- The sum of `loopProgram`, which the engine computes through its loop. -/
theorem known_answers_right_loopProgram :
    reference loopProgram Env.empty (.result 8 0) = some ⟨indexWidth, 3⟩ := by
  have hrun : (query loopSetup 0 100 (.result 8 0) (State.init ())).value?.map
      (fun r => r.1.payload?) = some (some ⟨indexWidth, 3⟩) := by decide +kernel
  obtain ⟨v, outcome, s', hr, hv⟩ := query_known hrun
  rw [← hv]
  exact (known_answers_right loopProgram_verified loopProgram_acyclic (.init ()) 0 100
    (by decide)).1 v outcome s' hr

/-- **Unknown answers are right** if no binding made one stale.  If, in a query, no block is bound
while a value that depends on its arguments is memoized as unknown, then a query that completes as
unknown, after any history, was for a value whose reference evaluation is unknown; and so is, under
the current bindings, every value a nested query has just answered as unknown. -/
theorem unknown_answers_right (hP : P.Verified) (hA : P.Acyclic)
    (h : History (shipped P H mem) past s) (engine budget : ℕ) {value : Value Op Blk}
    (hv : P.Valid value)
    (hfresh : ∀ t ∈ (query (shipped P H mem) engine budget value s).visited, NoStaleUnknown P t) :
    (∀ outcome s', (query (shipped P H mem) engine budget value s).outcome =
        .ok ((.unknown, outcome), s') → reference P Env.empty value = none) ∧
      ∀ t ∈ (query (shipped P H mem) engine budget value s).visited, ∀ u,
        t.log.head? = some (.answered u .unknown) → reference P t.engine.env u = none := by
  obtain ⟨hg, a, outcome, s', hr, hok⟩ := query_ends True hP h engine budget hv
    fun _ => hfresh
  refine ⟨fun outcome' t ht => ?_, fun t ht u hlog => ?_⟩
  · rw [hr] at ht
    obtain ⟨⟨rfl, -⟩, -⟩ : (a = .unknown ∧ outcome = outcome') ∧ s' = t := by simpa using ht
    exact (hok.agrees hA).unknown trivial rfl
  · exact ((hg t ht).answered hA u _ hlog).unknown trivial rfl

theorem not_depends_opaque (b : Fin 3) : ¬ twinProgram.Depends b (.result 10 0) := by
  intro h
  cases h with
  | operand _ hv => simp [twinProgram] at hv
  | body _ hop => exact absurd hop (by decide)

/-- The loop that the product asks for binds its block while the other factor, which does not depend
on it, is memoized as unknown. -/
theorem unknown_answers_right_twinProgram :
    (∃ t ∈ (query twinSetup 0 100 (.result 11 0) (State.init ())).visited, ∃ b args,
      t.log.head? = some (.bound b args) ∧ t.memo (.result 10 0) = some .unknown) ∧
      reference twinProgram Env.empty (.result 11 0) = none := by
  have hrun : (query twinSetup 0 100 (.result 11 0) (State.init ())).value?.map (fun r => r.1) =
      some .unknown := by decide +kernel
  have hbound : ((query twinSetup 0 100 (.result 11 0) (State.init ())).visited.any fun t =>
      t.log.head?.any Event.isBound && decide (t.memo (.result 10 0) = some .unknown)) = true := by
    decide +kernel
  have hmemo : ((query twinSetup 0 100 (.result 11 0) (State.init ())).visited.all fun t =>
      !t.log.head?.any Event.isBound || t.engine.queryAnswers.entries.all fun e =>
        decide (e.2 = .unknown → e.1 = .result 10 0)) = true := by decide +kernel
  constructor
  · obtain ⟨t, ht, hb⟩ := List.any_eq_true.mp hbound
    obtain ⟨hb, hunknown⟩ := Bool.and_eq_true_iff.mp hb
    obtain ⟨e, he, hb⟩ := (Option.any_eq_true _ _).mp hb
    cases e <;> simp only [Event.isBound, Bool.false_eq_true] at hb
    exact ⟨t, ht, _, _, he, of_decide_eq_true hunknown⟩
  · obtain ⟨⟨a, outcome⟩, ha, rfl⟩ := Option.map_eq_some_iff.mp hrun
    obtain ⟨s', hs'⟩ := Run.outcome_of_value? ha
    refine (unknown_answers_right twinProgram_verified twinProgram_acyclic (.init ()) 0 100
      (by decide) fun t ht b args hb v hv => ?_).1 outcome s' hs'
    have hentries := List.all_eq_true.mp hmemo t ht
    simp only [hb, Option.any_some, Event.isBound, Bool.not_true, Bool.false_or] at hentries
    have hv' := List.all_eq_true.mp hentries _ (AList.mem_lookup_iff.mp hv)
    obtain rfl : v = .result 10 0 := of_decide_eq_true hv' rfl
    exact not_depends_opaque b

/-- **A binding can make an unknown answer stale.**  Once the product `%5` of the loop's body is
cached, the query of the sum `%8` compares the product `%7` with it before the loop runs, and
memoizes `%4` as unknown, since its block is not bound.  Binding the block does not forget the
answer, so the loop yields it, and the sum is answered as unknown, though it is 3. -/
theorem stale_unknown_loopProgram :
    ∃ past s outcome s', History loopSetup past s ∧
      (query loopSetup 0 100 (.result 8 0) s).outcome = .ok ((.unknown, outcome), s') ∧
      reference loopProgram Env.empty (.result 8 0) = some ⟨indexWidth, 3⟩ := by
  have hfirst : (query loopSetup 0 100 (.result 5 0) (State.init ())).value?.isSome = true := by
    decide +kernel
  obtain ⟨r, hr⟩ := Option.isSome_iff_exists.mp hfirst
  obtain ⟨s, hs⟩ := Run.outcome_of_value? hr
  have hsecond :
      (query loopSetup 0 100 (.result 5 0) (State.init ()) |>.outcome.toOption.bind fun r =>
      (query loopSetup 0 100 (.result 8 0) r.2).value?.map fun r => r.1) = some .unknown := by
    decide +kernel
  rw [hs] at hsecond
  obtain ⟨⟨a, outcome⟩, ha, rfl⟩ := Option.map_eq_some_iff.mp hsecond
  obtain ⟨s', hs'⟩ := Run.outcome_of_value? ha
  exact ⟨_, s, outcome, s', .query 0 100 (.result 5 0) (by decide) (.init ()) hs, hs',
    by decide +kernel⟩

/-- **A program without use-def cycles never reports a cycle.** -/
theorem acyclic_never_cycle (hP : P.Verified) (hA : P.Acyclic)
    (h : History (shipped P H mem) past s) (engine budget : ℕ) {value : Value Op Blk}
    (hv : P.Valid value) (outcome : CacheOutcome) (s' : State Op Blk σ APInt) :
    (query (shipped P H mem) engine budget value s).outcome ≠
      .ok ((.signal .cycle, outcome), s') := by
  obtain ⟨-, a, outcome', t, hr, hok⟩ := query_ends False hP h engine budget hv (by simp)
  rw [hr]
  intro heq
  obtain ⟨⟨rfl, -⟩, -⟩ : (a = .signal .cycle ∧ outcome' = outcome) ∧ t = s' := by simpa using heq
  exact hok.cycle hA rfl

theorem acyclic_never_cycle_loopProgram :
    ¬ ∃ outcome s', (query loopSetup 0 100 (.result 8 0) (State.init ())).outcome =
      .ok ((.signal .cycle, outcome), s') := by
  rintro ⟨outcome, s', h⟩
  exact acyclic_never_cycle loopProgram_verified loopProgram_acyclic (.init ()) 0 100 (by decide)
    outcome s' h

/-- **A query ends and accounts for its budget.**  Whatever the program, the query returns; the
evaluations and iterations it started are what it was charged for and what is gone from its budget,
and it is exhausted only if nothing is left. -/
theorem query_accounts_for_budget (hP : P.Verified) (h : History (shipped P H mem) past s)
    (engine budget : ℕ) {value : Value Op Blk} (hv : P.Valid value) :
    ∃ a outcome s' did, (query (shipped P H mem) engine budget value s).outcome =
        .ok ((a, outcome), s') ∧ s'.log = did ++ s.log ∧
      work did = budget - s'.engine.remaining ∧ work did ≤ budget ∧ charges did = work did ∧
      (a = .signal .exhausted → charges did = budget) := by
  obtain ⟨-, a, outcome, s', hr, hok⟩ := query_ends False hP h engine budget hv (by simp)
  obtain ⟨did, hlog⟩ := query_log hr
  have hwork := hok.work
  have hcharges := hok.charges
  rw [hlog, show work (did ++ s.log) = work did + work s.log from List.countP_append] at hwork
  rw [hlog, show charges (did ++ s.log) = charges did + charges s.log from List.countP_append]
    at hcharges
  refine ⟨a, outcome, s', did, hr, hlog, by omega, by omega, by omega, fun ha => ?_⟩
  have := hok.exhausted ha
  omega

/-- Four steps do not suffice for the loop, but they end. -/
theorem query_accounts_for_budget_loopProgram :
    ∃ a outcome s' did, (query loopSetup 0 4 (.result 8 0) (State.init ())).outcome =
        .ok ((a, outcome), s') ∧ s'.log = did ++ (State.init () : State _ _ Unit APInt).log ∧
      work did = 4 - s'.engine.remaining ∧ work did ≤ 4 ∧ charges did = work did ∧
      (a = .signal .exhausted → charges did = 4) :=
  query_accounts_for_budget loopProgram_verified (.init ()) 0 4 (by decide)

/-- How blocks are bound, in one state. -/
structure Disciplined (P : Program Op Blk) (s : State Op Blk σ APInt) : Prop where
  /-- No block is bound twice. -/
  nodup : s.engine.blocks.Nodup
  /-- Up to now every block was bound with one answer per argument while it was not bound, and
  bindings ended in reverse order. -/
  ordered : openBlocks P s.log = some s.engine.blocks.reverse
  /-- Exactly the arguments of the bound blocks are bound. -/
  args : ∀ b i, (s.engine.bindings.lookup (b, i)).isSome = true ↔
    b ∈ s.engine.blocks ∧ i < P.numArgs b
  frozen : s.engine.frames ≠ [] → 0 < s.engine.freezes
  /-- Entries are appended and filled only while no block is bound. -/
  stored : ∀ e, s.log.head? = some e → e.isStore = true → s.engine.frames = []

theorem EvalGuar.disciplined (h : EvalGuar P exact s) : Disciplined P s where
  nodup := h.frames.nodup
  ordered := h.blocks
  args b i := by
    refine ⟨fun hb => ?_, fun hb => h.frames.total b hb.1 i hb.2⟩
    obtain ⟨a, ha⟩ := Option.isSome_iff_exists.mp hb
    obtain ⟨h₁, h₂, -⟩ := h.frames.bound b i a ha
    exact ⟨h₁, h₂⟩
  frozen := h.frames.frozen
  stored := h.stored

/-- **Bindings are disciplined on every path**, whatever the program, and nothing of them is left
when the query has ended. -/
theorem binding_discipline (hP : P.Verified) (h : History (shipped P H mem) past s)
    (engine budget : ℕ) {value : Value Op Blk} (hv : P.Valid value) :
    (∀ t ∈ past ++ (query (shipped P H mem) engine budget value s).visited, Disciplined P t) ∧
      ∃ r s', (query (shipped P H mem) engine budget value s).outcome = .ok (r, s') ∧
        s'.engine.frames = [] ∧ (∀ key, s'.engine.bindings.lookup key = none) ∧
        s'.engine.active = ∅ ∧ (∀ v, s'.memo v = none) ∧ s'.engine.freezes = 0 := by
  obtain ⟨hg, a, outcome, s', hr, hok⟩ := query_ends False hP h engine budget hv (by simp)
  refine ⟨fun t ht => ?_, _, s', hr, hok.rest.frames, hok.rest.bindings, hok.rest.active,
    hok.rest.memo, hok.rest.freezes⟩
  have hguar : EvalGuar P False t := (List.mem_append.mp ht).elim
    ((evalTheory_history hP h).2 t) (hg t)
  exact hguar.disciplined

theorem binding_discipline_loopProgram :
    (∀ t ∈ [State.init ()] ++ (query loopSetup 0 4 (.result 8 0) (State.init ())).visited,
        Disciplined loopProgram t) ∧
      ∃ r s', (query loopSetup 0 4 (.result 8 0) (State.init ())).outcome = .ok (r, s') ∧
        s'.engine.frames = [] ∧ (∀ key, s'.engine.bindings.lookup key = none) ∧
        s'.engine.active = ∅ ∧ (∀ v, s'.memo v = none) ∧ s'.engine.freezes = 0 :=
  binding_discipline loopProgram_verified (.init ()) 0 4 (by decide)

end Histories

end MlirInterpreter
