import Mathlib.Data.Fintype.EquivFin
import MlirInterpreter.Engine.Discipline
import MlirInterpreter.Engine.EvaluatedOnce
import MlirInterpreter.Engine.RenamedRuns
import MlirInterpreter.Engine.Session

/-!
# Sessions replayed elsewhere

A query of one context goes like the same query in a corresponding context, also if another engine
makes it.  So a session of blind models can be replayed elsewhere, call by call: over another
system's allocator and by other engines (`session_anywhere`), and in a new context if it follows a
`clearCache` (`session_after_clear`).  `Replayed` says what the two sessions have in common, which
is everything but the engines and the addresses.
-/

set_option autoImplicit false

namespace MlirInterpreter

open Recorded

/-- The answers say the same. -/
inductive Answer.Same {π : Type} : Answer π → Answer π → Prop
  | signal (status : Signal) : Same (.signal status) (.signal status)
  | unknown : Same .unknown .unknown
  | known {v w : EvalValue π} (h : w.payload = v.payload) : Same (.known v) (.known w)

/-- The replies say the same. -/
abbrev SameReply {π : Type} (x y : Answer π × CacheOutcome) : Prop := x.1.Same y.1 ∧ y.2 = x.2

variable {Op Blk σ π : Type} [DecidableEq Op] [DecidableEq Blk]

/-- The contexts correspond between queries. -/
def State.Renamed (s t : State Op Blk σ π) : Prop := ∃ L : Renaming π, L.Rest s t

theorem State.Renamed.init (w : σ) : (State.init w : State Op Blk σ π).Renamed (State.init w) :=
  ⟨.empty, fun _ _ h => h.elim, ⟨rfl, .nil, .empty⟩, ⟨rfl, rfl, .empty, rfl, .empty, rfl⟩, rfl⟩

/-! ## One query -/

section Rest

variable {L : Renaming π} {s t : State Op Blk σ π} {e e' : ℕ}

theorem Renaming.Rest.note (h : L.Rest s t) (ev ev' : Event Op Blk π) :
    L.Rest (s.note ev) (t.note ev') := ⟨h.live, h.cache, h.engine, h.world⟩

/-- A query starts without copies. -/
theorem Renaming.Rest.beginQuery (h : L.Rest s t) (e e' budget : ℕ) :
    L.Running e e' (s.beginQuery e budget) (t.beginQuery e' budget) where
  rest := ⟨h.live, ⟨h.cache.entries, h.cache.arena, h.cache.constants⟩,
    { h.engine with queryAllocator := rfl }, h.world⟩
  copies := ⟨fun _ _ => rfl, fun _ _ => rfl, fun _ _ _ => .none⟩
  left := Function.update_self ..
  right := Function.update_self ..
  remaining := rfl

/-- Storages may be added without ado. -/
theorem Renaming.Rest.retainAnswer (h : L.Rest s t) {r r' : Retained π}
    (hr : ∀ v ∈ s.heap, v ∈ r.heap) (hr' : ∀ v ∈ t.heap, v ∈ r'.heap) (e e' : ℕ) :
    L.Rest (s.retainAnswer e r) (t.retainAnswer e' r') :=
  ⟨fun v w hvw => ⟨hr v (h.live v w hvw).1, hr' w (h.live v w hvw).2⟩, h.cache, h.engine, h.world⟩

theorem Renaming.Engines.scopesEnded {g h : Engine Op Blk π} (hgh : L.Engines g h) :
    h.scopesEnded = g.scopesEnded := by
  rw [Engine.scopesEnded, Engine.scopesEnded, hgh.frames, hgh.bindings.isEmpty, hgh.freezes]

omit [DecidableEq Op] in
/-- A cache holds cached values only. -/
theorem Renaming.Cache.cachedOnly {c d : EvalCache Op π} (h : L.Cache c d) :
    L.cachedOnly.Cache c d := by
  have hle : L.cachedOnly ≤ L.cachedOnly.cachedOnly := fun _ _ h => ⟨h, h.2⟩
  have hslot : ∀ x y, L.Slots x y → L.cachedOnly.Slots x y := fun _ _ h =>
    Option.Rel.mono (fun _ _ h => h.mono hle) h
  exact ⟨h.entries, h.arena.imp fun _ _ h => ⟨h.op, h.results.imp hslot⟩,
    h.constants.mono fun _ _ h => Option.Rel.mono hle h⟩

omit [DecidableEq Op] in
theorem Renaming.map_op {l l' : List (CacheEntry Op π)} (h : List.Forall₂ L.Entry l l') :
    l'.map CacheEntry.op = l.map CacheEntry.op := by
  induction h with
  | nil => rfl
  | cons h _ ih => rw [List.map_cons, List.map_cons, h.op, ih]

/-- After a query only cached values need to correspond: all others may be gone, and no engine holds
one of them. -/
theorem Renaming.Rest.endQuery (h : L.Rest s t) (hend : s.engine.scopesEnded = true) :
    L.cachedOnly.Rest s.endQuery t.endQuery where
  live v w hvw := by
    have hcached : ∀ {x : EvalValue π} {n : ℕ}, x.isCached = true → x.owner ≠ .query n := by
      intro x n hx heq
      rw [EvalValue.isCached, heq] at hx
      simp at hx
    have hw : w.isCached = true := (L.cached hvw.1).trans hvw.2
    obtain ⟨hv', hw'⟩ := h.live v w hvw.1
    exact ⟨List.mem_filter.mpr ⟨hv', decide_eq_true (hcached hvw.2)⟩,
      List.mem_filter.mpr ⟨hw', decide_eq_true (hcached hw)⟩⟩
  cache := h.cache.cachedOnly
  engine :=
    { queryAllocator := rfl
      active := h.engine.active
      queryAnswers := .empty
      frames := h.engine.frames
      bindings := fun key => by
        have hnone : s.engine.bindings.lookup key = none := by
          rw [Engine.scopesEnded, Bool.and_eq_true, Bool.and_eq_true] at hend
          exact (DenseMap.isEmpty_iff _).mp hend.1.2 key
        show Option.Rel _ (s.engine.bindings.lookup key) (t.engine.bindings.lookup key)
        rw [(h.engine.bindings key).eq_none_iff.mpr hnone, hnone]
        exact .none
      freezes := h.engine.freezes }
  world := h.world

end Rest

/-- What an allocator retains first has the contents of the original, and nothing dies. -/
theorem retain_empty (mem : Malloc) (o : Owner) (heap : List (EvalValue π)) (v : EvalValue π) :
    (retain mem o heap ∅ v).value.payload = v.payload ∧
      ∀ w ∈ heap, w ∈ (retain mem o heap ∅ v).heap := by
  rw [retain]
  split
  · exact ⟨rfl, fun _ h => h⟩
  · rw [AList.lookup_empty]
    exact ⟨rfl, fun _ h => List.mem_cons_of_mem _ h⟩

section Queries

variable {L : Renaming π} {s t : State Op Blk σ π} {e e' : ℕ} {E : Setup Op Blk σ π} {mem : Malloc}

omit [DecidableEq Op] [DecidableEq Blk] in
theorem together_require {Q : Renaming π → Unit → Unit → State Op Blk σ π → State Op Blk σ π → Prop}
    {c c' : Bool} (hc : c' = c) (x : Abort) (h : c = true → Q L () () s t) :
    Together Q L (require c x) (require c' x) s t := by
  rw [require, require, hc]
  by_cases hc : c = true
  · rw [if_pos hc]
    exact .pure (h hc)
  · rw [if_neg hc]
    exact .halt x

/-- Answers are handed out that say the same. -/
theorem renamed_handOut (hst : L.Running e e' s t) {a b : Answer π} (hab : L.Answers a b) :
    Together (fun L' a b s' t' => a.Same b ∧ L'.Rest s' t' ∧
      t'.engine.remaining = s'.engine.remaining) L (handOut E e a) (handOut (E.withMalloc mem) e' b)
      s t := by
  cases hab with
  | signal status => exact .pure ⟨.signal status, hst.rest, hst.remaining⟩
  | unknown => exact .pure ⟨.unknown, hst.rest, hst.remaining⟩
  | @known v w h =>
    refine .read ?_
    obtain ⟨hv, hheap⟩ := retain_empty E.mem (.answers e) s.heap v
    obtain ⟨hw, hheap'⟩ := retain_empty mem (.answers e') t.heap w
    rw [hst.left, hst.right]
    refine Together.bind (Q := fun L' _ _ s' t' => L'.Rest s' t' ∧
      t'.engine.remaining = s'.engine.remaining) (.write le_rfl ⟨?_, hst.remaining⟩) ?_
    · exact (hst.rest.retainAnswer hheap hheap' e e').note _ _
    · rintro L' _ _ s' t' - ⟨hrest, hrem⟩
      exact .pure ⟨.known (by rw [hv, hw, L.payload h]), hrest, hrem⟩

variable [Fintype Op]

/-- **Queries of corresponding contexts go alike**, whatever engines make them. -/
theorem renamed_query (hE : E.Blind) (mem : Malloc) (hst : L.Rest s t) (e e' budget : ℕ)
    (v : Value Op Blk) :
    Together (fun _ x y s' t' => SameReply x y ∧ s'.Renamed t' ∧
      t'.engine.remaining = s'.engine.remaining) L (query E e budget v)
      (query (E.withMalloc mem) e' budget v) s t := by
  refine .read ((together_require (Q := fun L' _ _ s' t' => L' = L ∧ s' = s ∧ t' = t)
    hst.engine.queryAllocator _ fun _ => ⟨rfl, rfl, rfl⟩).bind ?_)
  rintro L' _ _ s' t' - ⟨rfl, rfl, rfl⟩
  refine (renamedAt_write (hst.beginQuery e e' budget)).bind ?_
  rintro L₁ _ _ s₁ t₁ - ⟨-, hst₁⟩
  refine (renamed_compute hE _ _ v L₁ s₁ t₁ hst₁).bind ?_
  rintro L₂ ⟨a, outcome⟩ ⟨b, outcome'⟩ s₂ t₂ - ⟨⟨hab, houtcome⟩, hst₂⟩
  refine (renamed_handOut hst₂ hab).bind ?_
  rintro L₃ a' b' s₃ t₃ - ⟨hsame, hrest, hrem⟩
  refine .read ((together_require (Q := fun L' _ _ s' t' => s₃.engine.scopesEnded = true ∧
    L' = L₃ ∧ s' = s₃ ∧ t' = t₃) hrest.engine.scopesEnded _ fun h => ⟨h, rfl, rfl, rfl⟩).bind ?_)
  rintro L' _ _ s' t' - ⟨hend, rfl, rfl, rfl⟩
  refine Together.bind (Q := fun _ _ _ s' t' => s'.Renamed t' ∧
    t'.engine.remaining = s'.engine.remaining) (.write le_rfl ⟨?_, hrem⟩) ?_
  · exact ⟨_, (hrest.endQuery hend).note _ _⟩
  · rintro L' _ _ s' t' - ⟨hst', hrem'⟩
    exact .pure ⟨⟨hsame, houtcome⟩, hst', hrem'⟩

end Queries

/-! ## Sessions -/

/-- The sessions consist of the same calls with the same replies, but for the engines that made
them: in the second session the call number `i` was made by `engines i`. -/
inductive Replayed : (ℕ → ℕ) → List (Exchange Op Blk π) → List (Exchange Op Blk π) → Prop
  | nil (engines : ℕ → ℕ) : Replayed engines [] []
  | query {engines : ℕ → ℕ} {l l' : List (Exchange Op Blk π)} (engine budget : ℕ)
      (value : Value Op Blk) {a b : Answer π} (hab : a.Same b) (outcome : CacheOutcome) (left : ℕ)
      (h : Replayed (fun i => engines (i + 1)) l l') :
      Replayed engines (.query engine budget value (a, outcome) left :: l)
        (.query (engines 0) budget value (b, outcome) left :: l')
  | clear {engines : ℕ → ℕ} {l l' : List (Exchange Op Blk π)}
      (h : Replayed (fun i => engines (i + 1)) l l') : Replayed engines (.clear :: l) (.clear :: l')

/-- Cleared contexts correspond, and so does a new one. -/
theorem Renaming.Rest.clear {L : Renaming π} {s t : State Op Blk σ π} (h : L.Rest s t) :
    L.Rest s.clear t.clear := ⟨h.live, ⟨rfl, .nil, .empty⟩, h.engine, h.world⟩

section Sessions

variable [Fintype Op] {E : Setup Op Blk σ π} {mem : Malloc} {s t u : State Op Blk σ π}
  {l : List (Exchange Op Blk π)}

/-- A session goes through in a corresponding context as well. -/
theorem Session.replay (hE : E.Blind) (mem : Malloc) (h : Session E s l u) (hst : s.Renamed t)
    (engines : ℕ → ℕ) :
    ∃ l' u', Session (E.withMalloc mem) t l' u' ∧ Replayed engines l l' ∧ u.Renamed u' := by
  induction h generalizing t engines with
  | nil s => exact ⟨[], t, .nil t, .nil engines, hst⟩
  | @query s s₁ u l engine budget value reply hv hr _ ih =>
    obtain ⟨L, hst⟩ := hst
    cases renamed_query hE mem hst engine (engines 0) budget value with
    | stop hstop => cases hstop.symm.trans hr
    | @ends L' x y s' t' hx hy hL hq =>
      obtain ⟨rfl, rfl⟩ := Prod.mk.inj (Except.ok.inj (hx.symm.trans hr))
      obtain ⟨⟨hsame, houtcome⟩, hst', hrem⟩ := hq
      obtain ⟨l', u', hs', hrep, hu⟩ := ih hst' fun i => engines (i + 1)
      refine ⟨_, u', .query (engines 0) budget value hv hy hs', ?_, hu⟩
      rw [hrem]
      obtain ⟨a, outcome⟩ := x
      obtain ⟨b, outcome'⟩ := y
      obtain rfl : outcome' = outcome := houtcome
      exact .query engine budget value hsame _ _ hrep
  | clear _ ih =>
    obtain ⟨L, hst⟩ := hst
    obtain ⟨l', u', hs', hrep, hu⟩ := ih ⟨L, hst.clear.note _ _⟩ fun i => engines (i + 1)
    exact ⟨_, u', .clear hs', .clear hrep, hu⟩

/-- **Where storages live makes no difference.**  A session of a new context with blind models goes
through over any other allocator as well, with its calls made by any engines: the replies say the
same, the same is left of the budgets, and in the end the models are in the same state and the
buckets of the cache are the same. -/
theorem session_anywhere (hE : E.Blind) (mem : Malloc) {w : σ} (h : Session E (State.init w) l u)
    (engines : ℕ → ℕ) :
    ∃ l' u', Session (E.withMalloc mem) (State.init w) l' u' ∧ Replayed engines l l' ∧
      u'.world = u.world ∧ u'.cache.entries = u.cache.entries ∧
      u'.cache.arena.map CacheEntry.op = u.cache.arena.map CacheEntry.op := by
  obtain ⟨l', u', hs, hrep, L, hu⟩ := h.replay hE mem (.init w) engines
  exact ⟨l', u', hs, hrep, hu.world, hu.cache.entries, Renaming.map_op hu.cache.arena⟩

/-- An allocator that picks the least address that is not in use. -/
def Malloc.first : Malloc where
  pick used := Nat.find (Infinite.exists_notMem_finset used.toFinset)
  pick_fresh used h :=
    Nat.find_spec (Infinite.exists_notMem_finset used.toFinset) (List.mem_toFinset.mpr h)

/-- A session of models that ask for operands in every method. -/
theorem reentrant_session {past : List (State (Fin 10) (Fin 2) Unit Unit)}
    {s : State (Fin 10) (Fin 2) Unit Unit} (h : History reentrantSetup past s) :
    ∃ l u, Session reentrantSetup s (.clear :: l) u ∧ l.length = 2 := by
  have hv : reentrantSetup.program.Valid (.result 8 0) := by decide
  have hclear : History reentrantSetup _ (s.clear.note .cleared) := h.clear rfl
  obtain ⟨⟨a, outcome⟩, t, hr, -⟩ := query_idle reentrantSetup_tidy hclear 0 100 hv
  obtain ⟨⟨b, outcome'⟩, u, hr', -⟩ :=
    query_idle reentrantSetup_tidy (hclear.query 0 100 _ hv hr) 1 100 hv
  exact ⟨_, u, .clear (.query 0 100 _ hv hr (.query 1 100 _ hv hr' (.nil u))), rfl⟩

/-- Three calls, by other engines over another allocator. -/
theorem session_anywhere_reentrant : ∃ l l' u',
    Session (reentrantSetup.withMalloc .first) (State.init ()) l' u' ∧
      Replayed (fun i => i + 5) l l' ∧ l.length = 3 := by
  obtain ⟨l, u, hs, hlen⟩ := reentrant_session (.init ())
  obtain ⟨l', u', hs', hrep, -⟩ :=
    session_anywhere (reentrantModels_blind _ _ _) .first hs fun i => i + 5
  exact ⟨_, l', u', hs', hrep, by rw [List.length_cons, hlen]⟩

/-! ## Cleared contexts -/

omit [DecidableEq Op] [DecidableEq Blk] [Fintype Op] in
theorem wp_true {α : Type} (m : EngineM Op Blk σ π α) (s : State Op Blk σ π)
    {Q : α → State Op Blk σ π → Prop} (h : ∀ a t, Q a t) :
    wp ⟨fun _ => True, fun _ => True, fun _ => True⟩ m s Q :=
  fun _ => ⟨fun _ _ => trivial, fun a t _ => h a t, fun _ _ => trivial⟩

/-- A query ends after its scopes have ended. -/
theorem query_ended {engine budget : ℕ} {v : Value Op Blk} {r : Answer π × CacheOutcome}
    (hr : (query E engine budget v s).outcome = .ok (r, t)) :
    ∃ u : State Op Blk σ π, u.engine.scopesEnded = true ∧ t.engine = u.endQuery.engine := by
  have hquery : wp ⟨fun _ => True, fun _ => True, fun _ => True⟩ (query E engine budget v) s
      fun _ t => ∃ u : State Op Blk σ π, u.engine.scopesEnded = true ∧
        t.engine = u.endQuery.engine := by
    refine wp_query (fun _ => trivial) fun _ => ⟨trivial, wp_true _ _ fun a u => ?_⟩
    exact wp_true _ _ fun b u' => ⟨fun _ => trivial, fun hend _ => ⟨trivial, u', hend, rfl⟩⟩
  exact (hquery fun _ _ => trivial).2.1 r t hr

/-- Between queries an engine is idle, whatever the models did. -/
theorem History.idle {past : List (State Op Blk σ π)} (h : History E past s) : s.engine.Idle := by
  refine (h.invariant (J := fun s => MemoAtRest s ∧ s.engine.Idle) (K := fun _ => True)
    (fun w => ⟨⟨⟨rfl, rfl, ?_⟩, rfl, rfl, fun _ => rfl, rfl, rfl, fun _ => rfl⟩, trivial⟩)
    (fun s engine budget value _ hs => ⟨fun _ _ => trivial, fun r t hr => ?_⟩)
    fun s hs => ⟨⟨⟨hs.1.active, hs.1.frames, ?_⟩, hs.2⟩, trivial⟩).1.2
  · simp [State.init, EvalCache.empty]
  · obtain ⟨-, hmemo, -⟩ := memoTheory_query (E := E) hs.1 engine budget value fun _ _ => trivial
    have ht := hmemo r t hr
    obtain ⟨u, hend, heq⟩ := query_ended hr
    rw [Engine.scopesEnded, Bool.and_eq_true, Bool.and_eq_true] at hend
    refine ⟨ht, by rw [heq]; rfl, ht.frames, ?_, ?_, ht.active, ?_⟩
    · rw [heq]
      exact (DenseMap.isEmpty_iff _).mp hend.1.2
    · rw [heq]
      exact of_decide_eq_true hend.2
    · rw [heq]
      exact fun _ => rfl
  · simp [State.note, State.clear, EvalCache.empty]

omit [Fintype Op] in
/-- A cleared context corresponds to a new one. -/
theorem Engine.Idle.engines {g h : Engine Op Blk π} (hg : g.Idle) (hh : h.Idle) (L : Renaming π) :
    L.Engines g h where
  queryAllocator := by rw [hg.queryAllocator, hh.queryAllocator]
  active := by rw [hg.active, hh.active]
  queryAnswers v := by
    rw [hg.queryAnswers, hh.queryAnswers]
    exact .none
  frames := by rw [hg.frames, hh.frames]
  bindings key := by
    rw [hg.bindings, hh.bindings]
    exact .none
  freezes := by rw [hg.freezes, hh.freezes]

/-- **A cleared context is as good as a new one.**  After any history, a session that starts with a
`clearCache` goes through in a new context with the models in the same state, and the sessions of
the new context go through after the `clearCache`: over any allocators, by any engines. -/
theorem session_after_clear (hE : E.Blind) {past : List (State Op Blk σ π)} (h : History E past s)
    (mem : Malloc) (engines : ℕ → ℕ) :
    (∀ u, Session E s (.clear :: l) u → ∃ l' u',
      Session (E.withMalloc mem) (State.init s.world) l' u' ∧ Replayed engines l l' ∧
        u'.world = u.world) ∧
    ∀ u, Session (E.withMalloc mem) (State.init s.world) l u → ∃ l' u',
      Session E s (.clear :: l') u' ∧ Replayed engines l l' ∧ u'.world = u.world := by
  have hnew : (State.init s.world : State Op Blk σ π).engine.Idle := (History.init (E := E) _).idle
  have hcache : (Renaming.empty : Renaming π).Cache (EvalCache.empty : EvalCache Op π) .empty :=
    ⟨rfl, .nil, .empty⟩
  constructor
  · rintro u (_ | _ | hs)
    obtain ⟨l', u', hs', hrep, L, hu⟩ := hs.replay hE mem (t := State.init s.world)
      ⟨.empty, fun _ _ h => h.elim, hcache, h.idle.engines hnew _, rfl⟩ engines
    exact ⟨l', u', hs', hrep, hu.world⟩
  · intro u hs
    have hE' : (E.withMalloc mem).Blind := hE
    obtain ⟨l', u', hs', hrep, L, hu⟩ := hs.replay hE' E.mem (t := s.clear.note .cleared)
      ⟨.empty, fun _ _ h => h.elim, hcache, hnew.engines h.idle _, rfl⟩ engines
    exact ⟨l', u', .clear hs', hrep, hu.world⟩

/-- Two queries after a query and a `clearCache`, replayed in a new context by one engine. -/
theorem session_after_clear_reentrant : ∃ r s l l' u',
    (query reentrantSetup 0 100 (.result 8 0) (State.init ())).outcome = .ok (r, s) ∧
      l.length = 2 ∧ Session (reentrantSetup.withMalloc .first) (State.init s.world) l' u' ∧
        Replayed (fun _ => 0) l l' := by
  have hv : reentrantSetup.program.Valid (.result 8 0) := by decide
  obtain ⟨r, s, hr, -⟩ := query_idle reentrantSetup_tidy (.init ()) 0 100 hv
  have h := History.query 0 100 _ hv (.init ()) hr
  obtain ⟨l, u, hs, hlen⟩ := reentrant_session h
  obtain ⟨l', u', hs', hrep, -⟩ :=
    (session_after_clear (reentrantModels_blind _ _ _) h .first fun _ => 0).1 u hs
  exact ⟨r, s, l, l', u', hr, hlen, hs', hrep⟩

end Sessions

end MlirInterpreter
