import MlirInterpreter.Engine.Renaming

/-!
# The engine goes together with itself

Every part of the engine, run in two contexts that correspond, does the same in both: it stops for
the same reason, or ends with values and states that correspond in a larger renaming.  The parts
follow the code of `Engine` and `EvalCache`, and `renamed_compute` puts them together by induction
on the recursion.  Of the models it is only used that they are blind.
-/

set_option autoImplicit false

namespace MlirInterpreter

open Recorded

section Runs

variable {Op Blk σ π : Type} [DecidableEq Op] [DecidableEq Blk] {e e' : ℕ} {L : Renaming π}

/-- From `s` and `t` the computations go together, and what they return is related by `Q`. -/
abbrev RenamedAt (e e' : ℕ) {α β : Type} (Q : Renaming π → α → β → Prop) (L : Renaming π)
    (m : EngineM Op Blk σ π α) (m' : EngineM Op Blk σ π β) (s t : State Op Blk σ π) : Prop :=
  Together (fun L' a b s' t' => Q L' a b ∧ L'.Running e e' s' t') L m m' s t

/-- The computations go together from all corresponding states. -/
def Renamed (e e' : ℕ) {α β : Type} (Q : Renaming π → α → β → Prop) (L : Renaming π)
    (m : EngineM Op Blk σ π α) (m' : EngineM Op Blk σ π β) : Prop :=
  ∀ s t, L.Running e e' s t → RenamedAt e e' Q L m m' s t

section Rules

variable {α β γ δ : Type} {Q : Renaming π → α → β → Prop} {Q' : Renaming π → γ → δ → Prop}

theorem Renamed.pure {a : α} {b : β} (h : Q L a b) :
    Renamed e e' Q L (Pure.pure a : EngineM Op Blk σ π α) (Pure.pure b : EngineM Op Blk σ π β) :=
  fun _ _ hst => .pure ⟨h, hst⟩

theorem Renamed.stop (x : Abort) :
    Renamed e e' Q L (Rec.stop x : EngineM Op Blk σ π α) (Rec.stop x : EngineM Op Blk σ π β) :=
  fun _ _ _ => .halt x

theorem Renamed.bind {m : EngineM Op Blk σ π α} {m' : EngineM Op Blk σ π β}
    {f : α → EngineM Op Blk σ π γ} {g : β → EngineM Op Blk σ π δ} (hm : Renamed e e' Q L m m')
    (hf : ∀ L' a b, L ≤ L' → Q L' a b → Renamed e e' Q' L' (f a) (g b)) :
    Renamed e e' Q' L (m >>= f) (m' >>= g) := fun s t hst =>
  (hm s t hst).bind fun L' a b s' t' hL h => hf L' a b hL h.1 s' t' h.2

theorem Renamed.read {f : State Op Blk σ π → EngineM Op Blk σ π γ}
    {g : State Op Blk σ π → EngineM Op Blk σ π δ}
    (h : ∀ s t, L.Running e e' s t → RenamedAt e e' Q' L (f s) (g t) s t) :
    Renamed e e' Q' L (Rec.read >>= f) (Rec.read >>= g) := fun s t hst => .read (h s t hst)

/-- Corresponding writes. -/
theorem renamedAt_write {s t : State Op Blk σ π} {ev ev' : Event Op Blk π}
    {f g : State Op Blk σ π → State Op Blk σ π} (h : L.Running e e' (f s) (g t)) :
    RenamedAt e e' (fun _ _ _ => True) L (record ev f) (record ev' g) s t :=
  .write le_rfl ⟨trivial, h.note ev ev'⟩

/-- Corresponding writes, after which more corresponds. -/
theorem renamedAt_record {L' : Renaming π} {s t : State Op Blk σ π} {ev ev' : Event Op Blk π}
    {f g : State Op Blk σ π → State Op Blk σ π} (hL : L ≤ L')
    (h : L'.Running e e' (f s) (g t)) :
    RenamedAt e e' (fun L'' _ _ => L' ≤ L'') L (record ev f) (record ev' g) s t :=
  .write hL ⟨le_rfl, h.note ev ev'⟩

theorem renamed_note (ev ev' : Event Op Blk π) :
    Renamed e e' (fun _ _ _ => True) L (record ev id : EngineM Op Blk σ π Unit)
      (record ev' id) :=
  fun _ _ hst => .write le_rfl ⟨trivial, hst.note ev ev'⟩

theorem renamed_require {c c' : Bool} (hc : c' = c) (x : Abort) :
    Renamed e e' (fun _ _ _ => True) L (require c x : EngineM Op Blk σ π Unit)
      (require c' x) := by
  rw [require, require, hc]
  split
  · exact .pure trivial
  · exact .stop x

end Rules

variable {E : Setup Op Blk σ π} {mem : Malloc}
  {ask ask' : Value Op Blk → EngineM Op Blk σ π (Answer π)}

theorem renamed_declareCost :
    Renamed e e' (fun _ a b => b = a) L (declareCost : EngineM Op Blk σ π Bool) declareCost := by
  refine .read fun s t hst => ?_
  rw [hst.remaining]
  split
  · exact .pure ⟨rfl, hst⟩
  · refine (renamedAt_write (hst.of_engines ?_ ?_)).bind fun _ _ _ _ _ _ h => .pure ⟨rfl, h.2⟩
    · exact { hst.rest.engine with }
    · show t.engine.remaining - 1 = s.engine.remaining - 1
      rw [hst.remaining]

theorem renamed_freezeCache : Renamed e e' (fun _ _ _ => True) L
    (freezeCache : EngineM Op Blk σ π Unit) freezeCache := by
  refine fun s t hst => renamedAt_write (hst.of_engines ?_ ?_)
  · exact { hst.rest.engine with freezes := congrArg (· + 1) hst.rest.engine.freezes }
  · exact hst.remaining

theorem renamed_thawCache : Renamed e e' (fun _ _ _ => True) L
    (thawCache : EngineM Op Blk σ π Unit) thawCache := by
  refine .read fun s t hst => ?_
  refine (renamed_require (by rw [hst.rest.engine.freezes]) _ s t hst).bind ?_
  rintro L' _ _ s' t' - ⟨-, hst'⟩
  refine renamedAt_write (hst'.of_engines ?_ ?_)
  · exact { hst'.rest.engine with freezes := congrArg (· - 1) hst'.rest.engine.freezes }
  · exact hst'.remaining

theorem renamed_bind (block : Blk) {args args' : List (Answer π)} (h : L.Results args args') :
    Renamed e e' (fun _ _ _ => True) L (MlirInterpreter.bind E block args)
      (MlirInterpreter.bind (E.withMalloc mem) block args') := by
  refine .read fun s t hst => ?_
  refine (renamed_require (by rw [h.length_eq]) _ s t hst).bind ?_
  rintro L₁ _ _ s₁ t₁ hL₁ ⟨-, hst₁⟩
  refine (renamed_require (by rw [hst.rest.engine.frames]) _ s₁ t₁ hst₁).bind ?_
  rintro L₂ _ _ s₂ t₂ hL₂ ⟨-, hst₂⟩
  have hargs := Renaming.Results.mono h (hL₁.trans hL₂)
  refine renamedAt_write (hst₂.of_engines ?_ ?_)
  · exact { hst₂.rest.engine with
      frames := congrArg (· ++ [⟨block, []⟩]) hst₂.rest.engine.frames
      bindings := hst₂.rest.engine.bindings.tryEmplaceAll hargs _ }
  · exact hst₂.remaining

theorem renamed_unbind (block : Blk) : Renamed e e' (fun _ _ _ => True) L
    (unbind E block) (unbind (E.withMalloc mem) block) := by
  refine .read fun s t hst => ?_
  rw [hst.rest.engine.frames]
  cases s.engine.frames.getLast? with
  | none => exact .halt _
  | some frame =>
    refine (renamed_require rfl _ s t hst).bind ?_
    rintro L' _ _ s' t' - ⟨-, hst'⟩
    refine renamedAt_write (hst'.of_engines ?_ ?_)
    · exact { hst'.rest.engine with
        queryAnswers := hst'.rest.engine.queryAnswers.eraseAll _
        bindings := hst'.rest.engine.bindings.eraseAll _
        frames := congrArg List.dropLast hst'.rest.engine.frames }
    · exact hst'.remaining

/-- Both contexts get a new storage. -/
theorem Renaming.Running.alloc {s t : State Op Blk σ π} (hst : L.Running e e' s t)
    (mem mem' : Malloc) {o o' : Owner} (ho : o' = .cache ↔ o = .cache) (p : π) :
    (L.alloc mem mem' hst.rest.live ho p).Running e e'
      (s.addStorage (newStorage mem s.heap o p)) (t.addStorage (newStorage mem' t.heap o' p)) where
  rest :=
    { live := hst.rest.live.alloc
      cache := hst.rest.cache.mono le_extend
      engine := hst.rest.engine.mono le_extend
      world := hst.rest.world }
  copies := hst.copies.alloc hst.rest.live
  left := hst.left
  right := hst.right
  remaining := hst.remaining

theorem renamed_allocate (payload : π) : Renamed e e' Renaming.rel L (allocate E payload)
    (allocate (E.withMalloc mem) payload) := by
  refine .read fun s t hst => ?_
  have ho : Owner.query t.queries = .cache ↔ Owner.query s.queries = .cache := by simp
  refine (renamedAt_record Renaming.le_extend (hst.alloc _ _ ho payload)).bind ?_
  rintro L' _ _ s' t' - ⟨hL', hst'⟩
  exact .pure ⟨hL' _ _ (Renaming.alloc_rel hst.rest.live ho), hst'⟩

theorem renamed_handler (ha : ∀ v L, Renamed e e' Renaming.Answers L (ask v) (ask' v))
    {i j : ScopeOp Op Blk σ π} (hij : Renaming.ScopeCall L i j) :
    Renamed e e' (fun L' => Renaming.ScopeResponse L' i j) L (handler E ask i)
      (handler (E.withMalloc mem) ask' j) := by
  cases hij with
  | query v =>
    refine (ha v L).bind fun L₁ a b _ hab => (renamed_note _ _).bind fun L₂ _ _ hL _ => ?_
    exact .pure (hab.mono hL)
  | declareCost => exact renamed_declareCost
  | freezeCache => exact renamed_freezeCache
  | thawCache => exact renamed_thawCache
  | bind block h => exact renamed_bind block h
  | unbind block => exact renamed_unbind block
  | allocate payload => exact renamed_allocate payload
  | getWorld => exact .read fun s t hst => .pure ⟨hst.rest.world, hst⟩
  | setWorld w =>
    refine fun s t hst => renamedAt_write (f := State.setWorld w) (g := State.setWorld w) ?_
    exact ⟨⟨hst.rest.live, hst.rest.cache, hst.rest.engine, rfl⟩, hst.copies, hst.left, hst.right,
      hst.remaining⟩

theorem renamed_runScope (ha : ∀ v L, Renamed e e' Renaming.Answers L (ask v) (ask' v)) {α : Type}
    {Q : Renaming π → α → α → Prop} {p : ScopeM Op Blk σ π α} (hp : BlindMethod Q p) :
    Renamed e e' Q L (runScope E ask p) (runScope (E.withMalloc mem) ask' p) := fun _ _ hst =>
  (hp L).run (K := fun L' s t => L'.Running e e' s t)
    (fun _ _ _ s t hij hK => renamed_handler ha hij s t hK) hst

/-! ### The cache -/

theorem renamed_readEntry (entry : ℕ) : Renamed e e' Renaming.Entry L
    (readEntry entry : EngineM Op Blk σ π (CacheEntry Op π)) (readEntry entry) := by
  refine .read fun s t hst => ?_
  have hentry := hst.rest.cache.arena.getElem? entry
  cases hs : s.cache.arena[entry]? with
  | none =>
    rw [hentry.eq_none_iff.mpr hs]
    exact .halt _
  | some x =>
    cases ht : t.cache.arena[entry]? with
    | none => cases hs.symm.trans (hentry.eq_none_iff.mp ht)
    | some y =>
      rw [hs, ht, Option.rel_some_some] at hentry
      exact .pure ⟨hentry, hst⟩

theorem renamed_readSlot (entry idx : ℕ) : Renamed e e' Renaming.Slots L
    (readSlot entry idx : EngineM Op Blk σ π (Option (Answer π))) (readSlot entry idx) := by
  refine (renamed_readEntry entry).bind fun L' x y _ hxy => ?_
  have hslot := hxy.results.getElem? idx
  cases hx : x.results[idx]? with
  | none =>
    rw [hslot.eq_none_iff.mpr hx]
    exact .stop _
  | some a =>
    cases hy : y.results[idx]? with
    | none => cases hx.symm.trans (hslot.eq_none_iff.mp hy)
    | some b =>
      rw [hx, hy, Option.rel_some_some] at hslot
      exact .pure hslot

theorem renamed_findEquivalent (ha : ∀ v L, Renamed e e' Renaming.Answers L (ask v) (ask' v))
    {model : OpModel Op Blk σ π} (hm : model.Blind) (op : Op) (key : HashCode) (fuel next : ℕ) :
    Renamed e e' (fun _ a b => b = a) L (findEquivalent E ask op model key fuel next)
      (findEquivalent (E.withMalloc mem) ask' op model key fuel next) := by
  induction fuel generalizing L next with
  | zero => exact .stop _
  | succ fuel ih =>
    refine .read fun s t hst => ?_
    have hbucket : t.bucket key = s.bucket key := by
      rw [State.bucket, State.bucket, EvalCache.bucket, EvalCache.bucket, hst.rest.cache.entries]
    rw [hbucket]
    cases (s.bucket key)[next]? with
    | none => exact .pure ⟨rfl, hst⟩
    | some entry =>
      refine ((renamed_readEntry entry).bind fun L₁ x y _ hxy => ?_) s t hst
      rw [hxy.op, hxy.results.length_eq]
      split
      · exact (renamed_note _ _).bind fun _ _ _ _ _ => .pure rfl
      · split
        · exact (renamed_note _ _).bind fun _ _ _ _ _ => ih (next + 1)
        · refine (renamed_runScope ha (hm.isEquivalentTo x.op)).bind fun L₂ r r' _ hr => ?_
          subst hr
          cases r' with
          | signal status => exact (renamed_note _ _).bind fun _ _ _ _ _ => ih (next + 1)
          | completed equivalent =>
            refine (renamed_note _ _).bind fun _ _ _ _ _ => ?_
            split
            · exact .pure rfl
            · exact ih (next + 1)

theorem renamed_lookup (ha : ∀ v L, Renamed e e' Renaming.Answers L (ask v) (ask' v))
    {model : OpModel Op Blk σ π} (hm : model.Blind) (fuel : ℕ) (op : Op) :
    Renamed e e' (fun _ a b => b = a) L (lookup E ask fuel op model)
      (lookup (E.withMalloc mem) ask' fuel op model) := by
  refine (renamed_runScope ha hm.getHash).bind fun L₁ r r' _ hr => ?_
  subst hr
  cases r' with
  | signal status => exact .pure rfl
  | completed key =>
    refine (renamed_note _ _).bind fun _ _ _ _ _ =>
      (renamed_findEquivalent ha hm op key fuel 0).bind fun _ x y _ hxy => ?_
    subst hxy
    exact .pure rfl

omit [DecidableEq Op] in
/-- The slot is filled with corresponding copies. -/
theorem Renaming.Cache.fillSlot {c d : EvalCache Op π} (h : L.Cache c d) {v w : EvalValue π}
    (hvw : L.cachedOnly.rel v w) (entry idx : ℕ) {copies copies' : DenseMap ℕ (EvalValue π)} :
    L.Cache
      { c with
        copies := copies
        arena := c.arena.modify entry fun x =>
          { x with results := x.results.set idx (some (.known v)) } }
      { d with
        copies := copies'
        arena := d.arena.modify entry fun x =>
          { x with results := x.results.set idx (some (.known w)) } } where
  entries := h.entries
  arena := by
    refine h.arena.modify (fun x y hxy => ?_) entry
    exact ⟨hxy.op, hxy.results.set (.some (.known hvw)) idx⟩
  constants := h.constants

theorem renamed_fillSlot (entry idx : ℕ) {a b : Answer π} (hab : L.Answers a b) :
    Renamed e e' (fun _ _ _ => True) L (fillSlot E entry idx a)
      (fillSlot (E.withMalloc mem) entry idx b) := by
  refine (renamed_readSlot entry idx).bind fun L₁ x y hL hxy => ?_
  cases hxy with
  | some _ => exact .pure trivial
  | none =>
    cases hab with
    | signal status => exact .pure trivial
    | unknown => exact .pure trivial
    | @known v w hvw =>
      refine .read fun s t hst => ?_
      obtain ⟨L₂, hL₂, hlive, hcopies, hvalue⟩ :=
        hst.copies.retain E.mem mem hst.rest.live (hL _ _ hvw)
      refine (renamedAt_record hL₂ (f := State.fillSlot entry idx _)
        (g := State.fillSlot entry idx _) ?_).mono fun _ _ _ _ _ _ h => ⟨trivial, h.2⟩
      exact
        { rest :=
            { live := hlive
              cache := (hst.rest.cache.mono hL₂).fillSlot hvalue entry idx
              engine := hst.rest.engine.mono hL₂
              world := hst.rest.world }
          copies := hcopies
          left := hst.left
          right := hst.right
          remaining := hst.remaining }

theorem renamed_fillSlots (entry idx : ℕ) {l l' : List (Answer π)} (hl : L.Results l l') :
    Renamed e e' (fun _ _ _ => True) L (fillSlots E entry idx l)
      (fillSlots (E.withMalloc mem) entry idx l') := by
  induction l generalizing l' idx L with
  | nil =>
    cases hl
    exact .pure trivial
  | cons a l ih =>
    cases hl with
    | cons hab hl =>
      exact (renamed_fillSlot entry idx hab).bind fun _ _ _ hL _ =>
        ih (idx + 1) (Renaming.Results.mono hl hL)

theorem renamed_fill (entry : ℕ) {l l' : List (Answer π)} (hl : L.Results l l') :
    Renamed e e' (fun _ _ _ => True) L (fill E entry l) (fill (E.withMalloc mem) entry l') :=
  (renamed_fillSlots entry 0 hl).bind fun _ _ _ _ _ => renamed_note _ _

omit [DecidableEq Op] [DecidableEq Blk] in
/-- A corresponding entry is appended. -/
theorem Renaming.Cache.append {s t : State Op Blk σ π} (h : L.Cache s.cache t.cache) (op : Op)
    (key : HashCode) (slots : ℕ) :
    L.Cache (s.append op key slots).cache (t.append op key slots).cache where
  entries := by
    show AList.insert key (t.bucket key ++ [t.cache.arena.length]) t.cache.entries =
      AList.insert key (s.bucket key ++ [s.cache.arena.length]) s.cache.entries
    rw [State.bucket, State.bucket, EvalCache.bucket, EvalCache.bucket, h.entries,
      h.arena.length_eq]
  arena := h.arena.concat ⟨rfl, .replicate .none slots⟩
  constants := h.constants

theorem renamed_insert (ha : ∀ v L, Renamed e e' Renaming.Answers L (ask v) (ask' v))
    {model : OpModel Op Blk σ π} (hm : model.Blind) (fuel : ℕ) (op : Op) (lookup : CacheLookup)
    {l l' : List (Answer π)} (hl : L.Results l l') :
    Renamed e e' (fun _ a b => b = a) L (insert E ask fuel op model lookup l)
      (insert (E.withMalloc mem) ask' fuel op model lookup l') := by
  refine (renamed_findEquivalent ha hm op _ fuel _).bind fun L₁ x y hL hxy => ?_
  subst hxy
  obtain ⟨found, next⟩ := y
  cases found with
  | some entry =>
    refine (renamed_note _ _).bind fun L₂ _ _ hL₂ _ => ?_
    refine (renamed_fill entry (Renaming.Results.mono hl (hL.trans hL₂))).bind fun _ _ _ _ _ => ?_
    exact .pure rfl
  | none =>
    refine .read fun s t hst => ?_
    rw [hst.rest.cache.arena.length_eq, hl.length_eq]
    have happend : L₁.Running e e' (s.append op lookup.key l'.length)
        (t.append op lookup.key l'.length) :=
      ⟨⟨hst.rest.live, hst.rest.cache.append op lookup.key l'.length, hst.rest.engine,
        hst.rest.world⟩, hst.copies, hst.left, hst.right, hst.remaining⟩
    refine (renamedAt_write happend).bind fun L₂ _ _ s' t' hL₂ hst' => ?_
    have hl₂ := Renaming.Results.mono hl (hL.trans hL₂)
    refine ((renamed_fill _ hl₂).bind fun _ _ _ _ _ => ?_) s' t' hst'.2
    exact .pure rfl

/-! ### `Engine::compute` -/

theorem renamed_memoize (v : Value Op Blk) {a b : Answer π} (hab : L.Answers a b) :
    Renamed e e' (fun _ _ _ => True) L (memoize E v a) (memoize (E.withMalloc mem) v b) := by
  refine .read fun s t hst => ?_
  have hmemo := (hst.rest.engine.queryAnswers v).eq_none_iff
  cases hs : s.engine.queryAnswers.lookup v with
  | none =>
    rw [hmemo.mpr hs]
    refine renamedAt_write (hst.of_engines ?_ ?_)
    · exact { hst.rest.engine with
        queryAnswers := hst.rest.engine.queryAnswers.insert hab v
        frames := congrArg (State.memoize.attach E.program v) hst.rest.engine.frames }
    · exact hst.remaining
  | some _ =>
    cases ht : t.engine.queryAnswers.lookup v with
    | none => cases hs.symm.trans (hmemo.mp ht)
    | some _ => exact .pure ⟨trivial, hst⟩

theorem renamed_evaluate
    {compute compute' : Value Op Blk → EngineM Op Blk σ π (Answer π × CacheOutcome)}
    (hc : ∀ v L, Renamed e e' (fun L' x y => L'.Answers x.1 y.1 ∧ y.2 = x.2) L (compute v)
      (compute' v)) (v : Value Op Blk) :
    Renamed e e' Renaming.Answers L (evaluate E compute v)
      (evaluate (E.withMalloc mem) compute' v) := by
  refine .read fun s t hst => ?_
  have hmemo := hst.rest.engine.queryAnswers v
  cases hs : s.engine.queryAnswers.lookup v with
  | none =>
    rw [hmemo.eq_none_iff.mpr hs]
    refine ((hc v L).bind fun L₁ x y _ hxy => ?_) s t hst
    obtain ⟨a, outcome⟩ := x
    obtain ⟨b, outcome'⟩ := y
    have hab : L₁.Answers a b := hxy.1
    simp only [hab.isCompleted]
    split
    · exact (renamed_memoize v hab).bind fun _ _ _ hL _ => .pure (hab.mono hL)
    · exact .pure hab
  | some a =>
    cases ht : t.engine.queryAnswers.lookup v with
    | none => cases hs.symm.trans (hmemo.eq_none_iff.mp ht)
    | some b =>
      rw [hs, ht, Option.rel_some_some] at hmemo
      exact .pure ⟨hmemo, hst⟩

/-- The value of a constant is stored in both caches. -/
theorem Renaming.Running.tryEmplace {s t : State Op Blk σ π} (hst : L.Running e e' s t)
    {a b : Option (EvalValue π)} (hab : Option.Rel L.cachedOnly.rel a b)
    (key : Attribute × Option Ty) :
    L.Running e e'
      { s with cache := { s.cache with
        constants := DenseMap.tryEmplace s.cache.constants key a } }
      { t with cache := { t.cache with
        constants := DenseMap.tryEmplace t.cache.constants key b } } where
  rest :=
    { hst.rest with
      cache := { hst.rest.cache with constants := hst.rest.cache.constants.tryEmplace hab key } }
  copies := hst.copies
  left := hst.left
  right := hst.right
  remaining := hst.remaining

theorem Renaming.Running.storeConstant {s t : State Op Blk σ π} (hst : L.Running e e' s t)
    (mem mem' : Malloc) (key : Attribute × Option Ty) (payload : Option π) :
    ∃ L', L ≤ L' ∧ Option.Rel L'.cachedOnly.rel (payload.map (newStorage mem s.heap .cache))
        (payload.map (newStorage mem' t.heap .cache)) ∧
      L'.Running e e' (s.storeConstant key (payload.map (newStorage mem s.heap .cache)))
        (t.storeConstant key (payload.map (newStorage mem' t.heap .cache))) := by
  cases payload with
  | none => exact ⟨L, le_rfl, .none, hst.tryEmplace .none key⟩
  | some p =>
    have ho : Owner.cache = Owner.cache ↔ Owner.cache = Owner.cache := Iff.rfl
    have hnew : (L.alloc mem mem' hst.rest.live ho p).cachedOnly.rel
        (newStorage mem s.heap .cache p) (newStorage mem' t.heap .cache p) :=
      ⟨Renaming.alloc_rel hst.rest.live ho, rfl⟩
    exact ⟨_, Renaming.le_extend, .some hnew,
      (hst.alloc mem mem' ho p).tryEmplace (.some hnew) key⟩

theorem renamed_evaluateConstant (op : Op) :
    Renamed e e' (fun L' x y => Option.Rel L'.rel x.1 y.1 ∧ y.2 = x.2) L (evaluateConstant E op)
      (evaluateConstant (E.withMalloc mem) op) := by
  rw [evaluateConstant, evaluateConstant]
  cases E.program.constantAttr op with
  | none => exact .pure ⟨.none, rfl⟩
  | some attr =>
    cases hm : E.models.attr attr with
    | none => simp only [hm]; exact .pure ⟨.none, rfl⟩
    | some model =>
      simp only [hm]
      split
      · refine .read fun s t hst => ?_
        have hconst := hst.rest.cache.constants (attr, E.program.valueType (.result op 0))
        cases hs : s.cache.constants.lookup (attr, E.program.valueType (.result op 0)) with
        | none =>
          rw [hconst.eq_none_iff.mpr hs]
          obtain ⟨L', hL', hvalue, hst'⟩ := hst.storeConstant E.mem mem
            (attr, E.program.valueType (.result op 0)) model.toEvalValue
          refine (renamedAt_record hL' hst').bind fun L'' _ _ _ _ _ h => ?_
          exact .pure ⟨⟨hvalue.mono fun _ _ hvw => h.1 _ _ hvw.1, rfl⟩, h.2⟩
        | some a =>
          cases ht : t.cache.constants.lookup (attr, E.program.valueType (.result op 0)) with
          | none => cases hs.symm.trans (hconst.eq_none_iff.mp ht)
          | some b =>
            rw [hs, ht, Option.rel_some_some] at hconst
            exact .pure ⟨⟨hconst.mono fun _ _ hvw => hvw.1, rfl⟩, hst⟩
      · cases model.toEvalValue with
        | none => exact .pure ⟨.none, rfl⟩
        | some payload =>
          exact (renamed_allocate payload).bind fun _ _ _ _ h => .pure ⟨.some h, rfl⟩

/-- What a slot holds takes the place of what was computed. -/
theorem Renaming.Slots.getD {x y : Option (Answer π)} (h : L.Slots x y) {a b : Answer π}
    (hab : L.Answers a b) : L.Answers (x.getD a) (y.getD b) := by
  cases h with
  | none => exact hab
  | some h => exact h.mono (Renaming.cachedOnly_le L)

theorem renamed_canonical (entry : Option ℕ) {l l' : List (Answer π)} (hl : L.Results l l')
    (idx : ℕ) : Renamed e e' Renaming.Answers L
      (canonical entry l idx : EngineM Op Blk σ π (Answer π)) (canonical entry l' idx) := by
  have hcomputed := hl.getElem? idx
  rw [canonical, canonical]
  cases hx : l[idx]? with
  | none =>
    rw [hcomputed.eq_none_iff.mpr hx]
    exact .stop _
  | some a =>
    cases hy : l'[idx]? with
    | none => cases hx.symm.trans (hcomputed.eq_none_iff.mp hy)
    | some b =>
      rw [hx, hy, Option.rel_some_some] at hcomputed
      cases entry with
      | none => exact .pure hcomputed
      | some entry =>
        exact (renamed_readSlot entry idx).bind fun _ _ _ hL h => .pure (h.getD (hcomputed.mono hL))

theorem renamed_memoizeResults (op : Op) (entry : Option ℕ) {l l' : List (Answer π)}
    (hl : L.Results l l') (idx count : ℕ) :
    Renamed e e' (fun _ _ _ => True) L (memoizeResults E op entry l idx count)
      (memoizeResults (E.withMalloc mem) op entry l' idx count) := by
  induction count generalizing L idx with
  | zero => exact .pure trivial
  | succ count ih =>
    refine (renamed_canonical entry hl idx).bind fun L₁ a b hL hab => ?_
    have hl₁ := Renaming.Results.mono hl hL
    rw [hab.isCompleted]
    split
    · exact (renamed_memoize _ hab).bind fun _ _ _ hL₂ _ =>
        ih (Renaming.Results.mono hl₁ hL₂) (idx + 1)
    · exact ih hl₁ (idx + 1)

theorem renamed_store (ha : ∀ v L, Renamed e e' Renaming.Answers L (ask v) (ask' v))
    {model : OpModel Op Blk σ π} (hm : model.Blind) (fuel : ℕ) (op : Op)
    (cached : Option CacheLookup) {l l' : List (Answer π)} (hl : L.Results l l') :
    Renamed e e' (fun _ a b => b = a) L (store E ask fuel op model cached l)
      (store (E.withMalloc mem) ask' fuel op model cached l') := by
  cases cached with
  | none => exact .pure rfl
  | some cached =>
    refine .read fun s t hst => ?_
    have hany : l'.any Answer.isKnown = l.any Answer.isKnown :=
      hl.any_eq fun _ _ h => h.isKnown
    rw [hst.rest.engine.freezes, hany]
    split
    · cases cached.entry with
      | some entry =>
        refine ((renamed_fill entry hl).bind fun _ _ _ _ _ => ?_) s t hst
        exact .pure rfl
      | none =>
        refine ((renamed_insert ha hm fuel op cached hl).bind fun _ _ _ _ h => ?_) s t hst
        exact .pure (congrArg some h)
    · exact .pure ⟨rfl, hst⟩

theorem renamed_evaluateOp (ha : ∀ v L, Renamed e e' Renaming.Answers L (ask v) (ask' v))
    {model : OpModel Op Blk σ π} (hm : model.Blind) (fuel : ℕ) (op : Op) (idx : ℕ)
    (cached : Option CacheLookup) :
    Renamed e e' Renaming.Answers L (evaluateOp E ask fuel op idx model cached)
      (evaluateOp (E.withMalloc mem) ask' fuel op idx model cached) := by
  refine renamed_declareCost.bind fun _ charged charged' _ h => ?_
  subst h
  cases charged' with
  | false => exact .pure (.signal _)
  | true =>
    refine (renamed_note _ _).bind fun _ _ _ _ _ => (renamed_runScope ha hm.evaluate).bind
      fun L₁ l l' _ hl => ?_
    refine (renamed_require (by rw [List.Forall₂.length_eq hl]) _).bind fun L₂ _ _ hL₂ _ =>
      (renamed_note _ _).bind fun L₃ _ _ hL₃ _ => ?_
    have hl₃ : L₃.Results l l' := Renaming.Results.mono hl (hL₂.trans hL₃)
    refine (renamed_store ha hm fuel op cached hl₃).bind fun L₄ entry entry' hL₄ h => ?_
    subst h
    have hl₄ := Renaming.Results.mono hl₃ hL₄
    rw [List.Forall₂.length_eq hl]
    refine (renamed_memoizeResults op entry' hl₄ 0 _).bind fun L₅ _ _ hL₅ _ => ?_
    exact renamed_canonical entry' (Renaming.Results.mono hl₄ hL₅) idx

/-- An answer and the outcome of the lookup. -/
abbrev Renaming.Replies (L : Renaming π) (x y : Answer π × CacheOutcome) : Prop :=
  L.Answers x.1 y.1 ∧ y.2 = x.2

theorem renamed_computeActive (ha : ∀ v L, Renamed e e' Renaming.Answers L (ask v) (ask' v))
    {model : OpModel Op Blk σ π} (hm : model.Blind) (fuel : ℕ) (op : Op) (idx : ℕ) :
    Renamed e e' Renaming.Replies L (computeActive E ask fuel op idx model)
      (computeActive (E.withMalloc mem) ask' fuel op idx model) := by
  have evaluated : ∀ (cached : Option CacheLookup) (outcome : CacheOutcome) (L : Renaming π),
      Renamed e e' Renaming.Replies L
        (evaluateOp E ask fuel op idx model cached >>= fun a => pure (a, outcome))
        (evaluateOp (E.withMalloc mem) ask' fuel op idx model cached >>= fun a =>
          pure (a, outcome)) := fun cached outcome L =>
    (renamed_evaluateOp ha hm fuel op idx cached).bind fun _ _ _ _ h => .pure ⟨h, rfl⟩
  refine (renamed_runScope ha hm.isCacheable).bind fun _ r r' _ h => ?_
  subst h
  rcases r' with (_ | _) | status
  · exact evaluated none .none _
  · refine (renamed_lookup ha hm fuel op).bind fun _ r r' _ h => ?_
    subst h
    rcases r' with cached | status
    · simp only
      cases cached.entry with
      | none => exact evaluated (some cached) .miss _
      | some entry =>
        refine (renamed_readSlot entry idx).bind fun L₁ x y _ hxy => ?_
        cases hxy with
        | none => exact evaluated (some cached) .miss _
        | some h => exact .pure ⟨h.mono (Renaming.cachedOnly_le _), rfl⟩
    · exact .pure ⟨.signal _, rfl⟩
  · exact .pure ⟨.signal _, rfl⟩

theorem renamed_computeOp (ha : ∀ v L, Renamed e e' Renaming.Answers L (ask v) (ask' v))
    {model : OpModel Op Blk σ π} (hm : model.Blind) (fuel : ℕ) (op : Op) (idx : ℕ) :
    Renamed e e' Renaming.Replies L (computeOp E ask fuel op idx model)
      (computeOp (E.withMalloc mem) ask' fuel op idx model) := by
  refine .read fun s t hst => ?_
  rw [hst.rest.engine.active]
  split
  · exact .pure ⟨⟨.signal _, rfl⟩, hst⟩
  · refine (renamedAt_write (hst.of_engines ?_ ?_)).bind fun L₁ _ _ s₁ t₁ _ h₁ => ?_
    · exact { hst.rest.engine with active := congrArg (Insert.insert op) hst.rest.engine.active }
    · exact hst.remaining
    · refine ((renamed_computeActive ha hm fuel op idx).bind fun L₂ x y _ hxy => ?_) s₁ t₁ h₁.2
      intro s₂ t₂ hst₂
      refine (renamedAt_write (hst₂.of_engines ?_ ?_)).bind fun L₃ _ _ s₃ t₃ hL h₃ => ?_
      · exact { hst₂.rest.engine with
          active := congrArg (fun A => A.erase op) hst₂.rest.engine.active }
      · exact hst₂.remaining
      · exact .pure ⟨⟨hxy.1.mono hL, hxy.2⟩, h₃.2⟩

theorem renamed_computeWith (hE : E.Blind)
    (ha : ∀ v L, Renamed e e' Renaming.Answers L (ask v) (ask' v)) (fuel : ℕ) (v : Value Op Blk) :
    Renamed e e' Renaming.Replies L (computeWith E ask fuel v)
      (computeWith (E.withMalloc mem) ask' fuel v) := by
  cases v with
  | arg b i =>
    refine .read fun s t hst => .pure ⟨⟨?_, rfl⟩, hst⟩
    have hbound := hst.rest.engine.bindings (b, i)
    generalize s.engine.bindings.lookup (b, i) = x at hbound
    generalize t.engine.bindings.lookup (b, i) = y at hbound
    cases hbound with
    | none => exact .unknown
    | some h => exact h
  | result op idx =>
    refine (renamed_require rfl _).bind fun _ _ _ _ _ => ?_
    cases hm : E.models.op op with
    | some model =>
      simp only
      exact renamed_computeOp ha (hE op model hm) fuel op idx
    | none =>
      simp only
      exact (renamed_evaluateConstant op).bind fun _ _ _ _ h => .pure ⟨.of_value h.1, h.2⟩

/-- **`Engine::compute` goes together with itself.** -/
theorem renamed_compute (hE : E.Blind) (fuel depth : ℕ) (v : Value Op Blk) (L : Renaming π) :
    Renamed e e' Renaming.Replies L (compute E fuel depth v)
      (compute (E.withMalloc mem) fuel depth v) := by
  induction depth generalizing v L with
  | zero => exact .stop _
  | succ depth ih =>
    exact renamed_computeWith hE (fun v L => renamed_evaluate ih v) fuel v

end Runs

end MlirInterpreter
