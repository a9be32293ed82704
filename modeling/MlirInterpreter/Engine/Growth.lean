import MlirInterpreter.Engine.Compute

/-!
# What every run changes, and what it keeps

`Continues s s'` collects what holds between any two states of one query, whatever the models do:

* a bucket only grows by appending, an entry keeps its operation and its number of slots, and a
  filled slot keeps its handle;
* no storage dies, the answer allocators are not touched, and the cache is not cleared;
* what was charged and what remains add up to the same number.

It is a preorder that every write of the engine satisfies on its own, so it holds between any two
states of a run of `compute` (`compute_steps`) in the order in which they were reached.
-/

set_option autoImplicit false

namespace MlirInterpreter

open Recorded

variable {Op Blk σ π : Type}

/-- The number of steps charged. -/
def charges (log : List (Event Op Blk π)) : ℕ :=
  log.countP fun
    | .charged => true
    | _ => false

/-- A later version of an entry: more slots may be filled. -/
structure CacheEntry.Extends (e e' : CacheEntry Op π) : Prop where
  op : e'.op = e.op
  length : e'.results.length = e.results.length
  slot : ∀ (i : ℕ) (a : Answer π), e.results[i]? = some (some a) → e'.results[i]? = some (some a)

theorem CacheEntry.Extends.refl (e : CacheEntry Op π) : e.Extends e :=
  ⟨rfl, rfl, fun _ _ h => h⟩

theorem CacheEntry.Extends.trans {a b c : CacheEntry Op π} (h : a.Extends b) (h' : b.Extends c) :
    a.Extends c :=
  ⟨h'.op.trans h.op, h'.length.trans h.length, fun i x hx => h'.slot i x (h.slot i x hx)⟩

/-- A later version of a cache: buckets are longer, and there are more entries. -/
structure EvalCache.Extends (c c' : EvalCache Op π) : Prop where
  bucket : ∀ key, c.bucket key <+: c'.bucket key
  arena : ∀ (e : ℕ) (entry : CacheEntry Op π), c.arena[e]? = some entry →
    ∃ entry', c'.arena[e]? = some entry' ∧ entry.Extends entry'

theorem EvalCache.Extends.refl (c : EvalCache Op π) : c.Extends c :=
  ⟨fun _ => List.prefix_refl _, fun _ entry h => ⟨entry, h, .refl entry⟩⟩

theorem EvalCache.Extends.trans {a b c : EvalCache Op π} (h : a.Extends b) (h' : b.Extends c) :
    a.Extends c where
  bucket key := (h.bucket key).trans (h'.bucket key)
  arena e entry he := by
    obtain ⟨entry', he', hx⟩ := h.arena e entry he
    obtain ⟨entry'', he'', hx'⟩ := h'.arena e entry' he'
    exact ⟨entry'', he'', hx.trans hx'⟩

/-- Caches that differ in neither buckets nor entries. -/
theorem EvalCache.Extends.of_eq {c c' : EvalCache Op π} (he : c'.entries = c.entries)
    (ha : c'.arena = c.arena) : c.Extends c' where
  bucket key := by rw [EvalCache.bucket, EvalCache.bucket, he]
  arena e entry h := ⟨entry, ha ▸ h, .refl entry⟩

/-- A position of a bucket keeps its entry. -/
theorem EvalCache.Extends.getElem? {c c' : EvalCache Op π} (h : c.Extends c') {key : HashCode}
    {n e : ℕ} (hn : (c.bucket key)[n]? = some e) : (c'.bucket key)[n]? = some e := by
  obtain ⟨l, hl⟩ := h.bucket key
  rw [← hl, List.getElem?_append_left (List.getElem?_eq_some_iff.mp hn).1, hn]

/-! ## Writes to the cache -/

/-- An entry after a slot was filled, seen from before. -/
theorem State.fillSlot_arena {s : State Op Blk σ π} {e e' idx : ℕ} {r : Retained π}
    {entry' : CacheEntry Op π} (he' : (s.fillSlot e idx r).cache.arena[e']? = some entry') :
    ∃ entry, s.cache.arena[e']? = some entry ∧ entry'.op = entry.op ∧
      entry'.results.length = entry.results.length ∧
      (∀ (i : ℕ) a, entry'.results[i]? = some (some a) → entry.results[i]? = some (some a) ∨
        e = e' ∧ i = idx ∧ a = .known r.value) ∧
      (e = e' → idx < entry.results.length →
        entry'.results[idx]? = some (some (.known r.value))) := by
  simp only [State.fillSlot, List.getElem?_modify] at he'
  cases hent : s.cache.arena[e']? with
  | none => simp [hent] at he'
  | some entry =>
    refine ⟨entry, rfl, ?_⟩
    by_cases hee : e = e'
    · simp only [hent, hee, Option.map_eq_map, Option.map_some, Option.some.injEq, if_true] at he'
      subst he'
      refine ⟨rfl, by simp, fun i a hi => ?_, fun _ hidx => by simp [hidx]⟩
      rw [List.getElem?_set] at hi
      split at hi
      · next hii =>
        right
        split at hi <;> simp_all
      · exact Or.inl hi
    · simp only [hent, if_neg hee, Option.map_eq_map, Option.map_some, Option.some.injEq] at he'
      subst he'
      exact ⟨rfl, rfl, fun i a hi => Or.inl hi, fun h => absurd h hee⟩

/-- An entry after another one was appended. -/
theorem State.append_arena {s : State Op Blk σ π} {op : Op} {key : HashCode} {slots e : ℕ}
    {entry : CacheEntry Op π} (he : (s.append op key slots).cache.arena[e]? = some entry) :
    s.cache.arena[e]? = some entry ∨
      e = s.cache.arena.length ∧ entry = ⟨op, List.replicate slots none⟩ := by
  simp only [State.append] at he
  rcases Nat.lt_trichotomy e s.cache.arena.length with hlt | rfl | hgt
  · exact Or.inl (by rwa [List.getElem?_append_left hlt] at he)
  · exact Or.inr ⟨rfl, by simpa using he.symm⟩
  · rw [List.getElem?_eq_none (by simp; omega)] at he
    simp at he

/-- A position of a bucket after an entry was appended. -/
theorem State.append_bucket {s : State Op Blk σ π} {op : Op} {key key' : HashCode}
    {slots m e : ℕ} (he : ((s.append op key slots).bucket key')[m]? = some e) :
    (s.bucket key')[m]? = some e ∨
      key' = key ∧ m = (s.bucket key).length ∧ e = s.cache.arena.length := by
  simp only [State.bucket, EvalCache.bucket, State.append, DenseMap.lookup_insert'] at he ⊢
  split at he
  · next hkk =>
    subst hkk
    simp only [Option.getD_some] at he
    rcases Nat.lt_trichotomy m ((s.cache.entries.lookup key').getD []).length with hlt | rfl | hgt
    · exact Or.inl (by rwa [List.getElem?_append_left hlt] at he)
    · exact Or.inr ⟨rfl, rfl, by simpa using he.symm⟩
    · rw [List.getElem?_eq_none (by simp; omega)] at he
      simp at he
  · exact Or.inl he

/-- What holds between an earlier and a later state of one query. -/
structure Continues (s s' : State Op Blk σ π) : Prop where
  cache : s.cache.Extends s'.cache
  heap : s.heap <:+ s'.heap
  log : s.log <:+ s'.log
  charged : charges s'.log + s'.engine.remaining = charges s.log + s.engine.remaining
  queries : s'.queries = s.queries
  clears : s'.clears = s.clears
  answerCopies : s'.answerCopies = s.answerCopies
  queryAllocator : s'.engine.queryAllocator = s.engine.queryAllocator

namespace Continues

theorem refl (s : State Op Blk σ π) : Continues s s :=
  ⟨.refl _, List.suffix_refl _, List.suffix_refl _, rfl, rfl, rfl, rfl, rfl⟩

theorem trans {a b c : State Op Blk σ π} (h : Continues a b) (h' : Continues b c) :
    Continues a c :=
  ⟨h.cache.trans h'.cache, h.heap.trans h'.heap, h.log.trans h'.log,
    h'.charged.trans h.charged, h'.queries.trans h.queries, h'.clears.trans h.clears,
    h'.answerCopies.trans h.answerCopies, h'.queryAllocator.trans h.queryAllocator⟩

theorem remaining_le {s s' : State Op Blk σ π} (h : Continues s s') :
    s'.engine.remaining ≤ s.engine.remaining := by
  obtain ⟨l, hl⟩ := h.log
  have hc := h.charged
  rw [← hl, charges, charges, List.countP_append] at hc
  omega

/-- A write that touches the engine's own fields only, and charges nothing. -/
theorem note {e : Event Op Blk π} {f : State Op Blk σ π → State Op Blk σ π}
    {s : State Op Blk σ π} (he : e ≠ .charged) (hc : (f s).cache = s.cache)
    (hh : (f s).heap = s.heap) (hl : (f s).log = s.log)
    (hr : (f s).engine.remaining = s.engine.remaining) (hq : (f s).queries = s.queries)
    (hcl : (f s).clears = s.clears) (ha : (f s).answerCopies = s.answerCopies)
    (hqa : (f s).engine.queryAllocator = s.engine.queryAllocator) :
    Continues s ((f s).note e) where
  cache := by rw [State.note, hc]; exact .refl _
  heap := by rw [State.note, hh]
  log := by rw [State.note, hl]; exact List.suffix_cons _ _
  charged := by
    have h0 : charges (e :: s.log) = charges s.log := by
      rw [charges, charges, List.countP_cons_of_neg]
      cases e <;> simp_all
    simp only [State.note, hl, hr, h0]
  queries := hq
  clears := hcl
  answerCopies := ha
  queryAllocator := hqa

/-- An event alone. -/
theorem noted {e : Event Op Blk π} (he : e ≠ .charged) (s : State Op Blk σ π) :
    Continues s (s.note e) :=
  have h : Continues s ((id s).note e) := .note he rfl rfl rfl rfl rfl rfl rfl rfl
  h

theorem charge {s : State Op Blk σ π} (h : s.engine.remaining ≠ 0) :
    Continues s (s.charge.note .charged) where
  cache := .refl _
  heap := List.suffix_refl _
  log := List.suffix_cons _ _
  charged := by
    simp only [State.note, State.charge, charges, List.countP_cons_of_pos]
    omega
  queries := rfl
  clears := rfl
  answerCopies := rfl
  queryAllocator := rfl

/-- A new storage. -/
theorem addStorage (v : EvalValue π) (s : State Op Blk σ π) :
    Continues s ((s.addStorage v).note (.allocated v)) where
  cache := .refl _
  heap := List.suffix_cons _ _
  log := List.suffix_cons _ _
  charged := rfl
  queries := rfl
  clears := rfl
  answerCopies := rfl
  queryAllocator := rfl

/-- The value of a constant is converted into the cache. -/
theorem storeConstant (attr : Attribute) (type : Option Ty) (v : Option (EvalValue π))
    (s : State Op Blk σ π) :
    Continues s ((s.storeConstant (attr, type) v).note (.constantStored attr type v)) where
  cache := .of_eq rfl rfl
  heap := List.suffix_append _ _
  log := List.suffix_cons _ _
  charged := rfl
  queries := rfl
  clears := rfl
  answerCopies := rfl
  queryAllocator := rfl

/-- An entry is appended. -/
theorem append (op : Op) (key : HashCode) (slots : ℕ) (s : State Op Blk σ π) :
    Continues s ((s.append op key slots).note (.appended op key s.cache.arena.length)) where
  cache := by
    refine ⟨fun key' => ?_, fun e entry he => ⟨entry, ?_, .refl entry⟩⟩
    · simp only [State.note, State.append, EvalCache.bucket, DenseMap.lookup_insert', State.bucket]
      split
      · next h => subst h; exact List.prefix_append _ _
      · exact List.prefix_refl _
    · simp only [State.note, State.append]
      rw [List.getElem?_append_left (List.getElem?_eq_some_iff.mp he).1, he]
  heap := List.suffix_refl _
  log := List.suffix_cons _ _
  charged := rfl
  queries := rfl
  clears := rfl
  answerCopies := rfl
  queryAllocator := rfl

/-- An empty slot is filled. -/
theorem fillSlot (mem : Malloc) {entry idx : ℕ} {ent : CacheEntry Op π} (v : EvalValue π)
    {s : State Op Blk σ π} (he : s.cache.arena[entry]? = some ent)
    (hs : ent.results[idx]? = some none) :
    let r := retain mem .cache s.heap s.cache.copies v
    Continues s ((s.fillSlot entry idx r).note (.filled entry idx v r.value)) where
  cache := by
    refine ⟨fun key' => List.prefix_refl _, fun e ent' he' => ?_⟩
    simp only [State.note, State.fillSlot, List.getElem?_modify, he']
    by_cases hee : entry = e
    · subst hee
      obtain rfl : ent = ent' := by simpa [he] using he'
      refine ⟨_, congrArg some (if_pos rfl), rfl, by simp, fun i a hi => ?_⟩
      have hne : idx ≠ i := by
        rintro rfl
        simp [hs] at hi
      simpa [List.getElem?_set_ne hne] using hi
    · exact ⟨ent', congrArg some (if_neg hee), .refl _⟩
  heap := by
    simp only [State.note, State.fillSlot, retain]
    split
    · exact List.suffix_refl _
    · split
      · exact List.suffix_refl _
      · exact List.suffix_cons _ _
  log := List.suffix_cons _ _
  charged := rfl
  queries := rfl
  clears := rfl
  answerCopies := rfl
  queryAllocator := rfl

end Continues

/-! ## Every run takes such steps -/

section Records

/-- Every step of `m` continues the query. -/
abbrev Continuing {α : Type} (m : EngineM Op Blk σ π α) : Prop := Steps Continues m

theorem continuing_note {e : Event Op Blk π} (he : e ≠ .charged) :
    Continuing (record (σ := σ) e id) :=
  Steps.write fun s => .noted he s

theorem continuing_require (c : Bool) (x : Abort) :
    Continuing (require c x : EngineM Op Blk σ π Unit) := by
  rw [require]
  split
  · exact Steps.pure _
  · exact Steps.stop _

end Records

section Runs

variable (E : Setup Op Blk σ π)

theorem continuing_declareCost : Continuing (declareCost : EngineM Op Blk σ π Bool) := by
  refine Steps.read_bind fun s => ?_
  by_cases h : s.engine.remaining = 0
  · rw [if_pos h]
    exact StepsAt.pure _ _
  · rw [if_neg h]
    exact (StepsAt.write (.charge h)).bind fun _ _ _ => StepsAt.pure _ _

theorem continuing_thawCache : Continuing (thawCache : EngineM Op Blk σ π Unit) :=
  Steps.read_bind fun s => (continuing_require _ _ s).bind fun _ s' _ =>
    StepsAt.write (.note (by simp) rfl rfl rfl rfl rfl rfl rfl rfl)

section

variable [DecidableEq Blk]

theorem continuing_bind (block : Blk) (args : List (Answer π)) :
    Continuing (bind E block args) :=
  Steps.read_bind fun s => (continuing_require _ _ s).bind fun _ s₁ _ =>
    (continuing_require _ _ s₁).bind fun _ s₂ _ =>
      StepsAt.write (.note (by simp) rfl rfl rfl rfl rfl rfl rfl rfl)

variable [DecidableEq Op]

theorem continuing_unbind (block : Blk) : Continuing (unbind E block) := by
  refine Steps.read_bind fun s => ?_
  cases s.engine.frames.getLast? with
  | none => exact StepsAt.stop _ _
  | some frame =>
    exact (continuing_require _ _ s).bind fun _ s₁ _ =>
      StepsAt.write (.note (by simp) rfl rfl rfl rfl rfl rfl rfl rfl)

end

theorem continuing_allocate (payload : π) : Continuing (allocate E payload) :=
  Steps.read_bind fun s => (StepsAt.write (.addStorage _ s)).bind fun _ _ _ => StepsAt.pure _ _

variable {E} {ask : Value Op Blk → EngineM Op Blk σ π (Answer π)}

section

variable [DecidableEq Op] [DecidableEq Blk]

theorem continuing_handler (ha : ∀ v, Continuing (ask v)) (i : ScopeOp Op Blk σ π) :
    Continuing (handler E ask i) := by
  cases i with
  | query v =>
    exact (ha v).bind fun a => (continuing_note (by simp)).bind fun _ => Steps.pure _
  | declareCost => exact continuing_declareCost
  | freezeCache => exact Steps.write fun s => .note (by simp) rfl rfl rfl rfl rfl rfl rfl rfl
  | thawCache => exact continuing_thawCache
  | bind block args => exact continuing_bind E block args
  | unbind block => exact continuing_unbind E block
  | allocate payload => exact continuing_allocate E payload
  | getWorld => exact Steps.read_bind fun s => StepsAt.pure _ _
  | setWorld w => exact Steps.write fun s => .note (by simp) rfl rfl rfl rfl rfl rfl rfl rfl

theorem continuing_runScope (ha : ∀ v, Continuing (ask v)) {α : Type}
    (p : ScopeM Op Blk σ π α) : Continuing (runScope E ask p) :=
  Prog.steps_run (continuing_handler ha) p

end

theorem continuing_readEntry (entry : ℕ) :
    Continuing (readEntry entry : EngineM Op Blk σ π (CacheEntry Op π)) := by
  refine Steps.read_bind fun s => ?_
  cases s.cache.arena[entry]? with
  | none => exact StepsAt.stop _ _
  | some e => exact StepsAt.pure _ _

theorem continuing_readSlot (entry idx : ℕ) :
    Continuing (readSlot entry idx : EngineM Op Blk σ π (Option (Answer π))) := by
  refine (continuing_readEntry entry).bind fun e => ?_
  cases e.results[idx]? with
  | none => exact Steps.stop _
  | some slot => exact Steps.pure _

section

variable [DecidableEq Op] [DecidableEq Blk]

theorem continuing_findEquivalent (ha : ∀ v, Continuing (ask v)) (op : Op)
    (model : OpModel Op Blk σ π) (key : HashCode) (fuel next : ℕ) :
    Continuing (findEquivalent E ask op model key fuel next) := by
  induction fuel generalizing next with
  | zero => exact Steps.stop _
  | succ fuel ih =>
    refine Steps.read_bind fun s => ?_
    cases (s.bucket key)[next]? with
    | none => exact StepsAt.pure _ _
    | some entry =>
      refine (continuing_readEntry entry s).bind fun e s₁ _ => ?_
      split
      · exact (continuing_note (by simp) s₁).bind fun _ _ _ => StepsAt.pure _ _
      · split
        · exact (continuing_note (by simp) s₁).bind fun _ s₂ _ => ih (next + 1) s₂
        · refine (continuing_runScope ha _ s₁).bind fun r s₂ _ => ?_
          cases r with
          | signal status =>
            exact (continuing_note (by simp) s₂).bind fun _ s₃ _ => ih (next + 1) s₃
          | completed equivalent =>
            refine (continuing_note (by simp) s₂).bind fun _ s₃ _ => ?_
            split
            · exact StepsAt.pure _ _
            · exact ih (next + 1) s₃

theorem continuing_lookup (ha : ∀ v, Continuing (ask v)) (fuel : ℕ) (op : Op)
    (model : OpModel Op Blk σ π) : Continuing (lookup E ask fuel op model) := by
  refine (continuing_runScope ha _).bind fun r => ?_
  cases r with
  | signal status => exact Steps.pure _
  | completed key =>
    exact (continuing_note (by simp)).bind fun _ =>
      (continuing_findEquivalent ha op model key fuel 0).bind fun _ => Steps.pure _

end

/-- What is known after a slot was read. -/
theorem readSlot_ok {entry idx : ℕ} {s s' : State Op Blk σ π} {slot : Option (Answer π)}
    (h : (readSlot entry idx s).outcome = .ok (slot, s')) :
    s' = s ∧ ∃ e, s.cache.arena[entry]? = some e ∧ e.results[idx]? = some slot := by
  simp only [readSlot, readEntry, Rec.bind_apply, Rec.andThen, Rec.read] at h
  cases he : s.cache.arena[entry]? with
  | none => simp [he, Rec.stop] at h
  | some e =>
    simp only [he, Rec.pure_apply] at h
    cases hs : e.results[idx]? with
    | none => simp [hs, Rec.stop] at h
    | some slot' =>
      simp only [hs, Rec.pure_apply, Except.ok.injEq, Prod.mk.injEq] at h
      exact ⟨h.2.symm, e, rfl, h.1 ▸ hs⟩

/-- Only an empty slot is filled. -/
theorem continuing_fillSlot (entry idx : ℕ) (answer : Answer π) :
    Continuing (fillSlot E entry idx answer) := by
  intro s
  refine ((continuing_readEntry entry s).bind fun e s₁ he => ?_).bind fun slot s₁ hs => ?_
  · cases e.results[idx]? with
    | none => exact StepsAt.stop _ _
    | some slot => exact StepsAt.pure _ _
  · obtain ⟨rfl, e, he, hslot⟩ := readSlot_ok hs
    rcases slot with _ | a
    · rcases answer with (_ | v) | st
      · exact StepsAt.pure _ _
      · exact StepsAt.read_bind (StepsAt.write (.fillSlot E.mem v he hslot))
      · exact StepsAt.pure _ _
    · exact StepsAt.pure _ _

theorem continuing_fillSlots (entry idx : ℕ) (answers : List (Answer π)) :
    Continuing (fillSlots E entry idx answers) := by
  induction answers generalizing idx with
  | nil => exact Steps.pure _
  | cons a as ih => exact (continuing_fillSlot entry idx a).bind fun _ => ih (idx + 1)

theorem continuing_fill (entry : ℕ) (answers : List (Answer π)) :
    Continuing (fill E entry answers) :=
  (continuing_fillSlots entry 0 answers).bind fun _ => continuing_note (by simp)

section

variable [DecidableEq Op] [DecidableEq Blk]

theorem continuing_insert (ha : ∀ v, Continuing (ask v)) (fuel : ℕ) (op : Op)
    (model : OpModel Op Blk σ π) (lookup : CacheLookup) (answers : List (Answer π)) :
    Continuing (insert E ask fuel op model lookup answers) := by
  refine (continuing_findEquivalent ha op model _ fuel _).bind fun r => ?_
  rcases r with ⟨_ | entry, next⟩
  · exact Steps.read_bind fun s => (StepsAt.write (.append op _ _ s)).bind fun _ s' _ =>
      (continuing_fill _ answers s').bind fun _ _ _ => StepsAt.pure _ _
  · exact (continuing_note (by simp)).bind fun _ =>
      (continuing_fill entry answers).bind fun _ => Steps.pure _

theorem continuing_memoize (v : Value Op Blk) (answer : Answer π) :
    Continuing (memoize E v answer) := by
  refine Steps.read_bind fun s => ?_
  cases s.engine.queryAnswers.lookup v with
  | some _ => exact StepsAt.pure _ _
  | none => exact StepsAt.write (.note (by simp) rfl rfl rfl rfl rfl rfl rfl rfl)

theorem continuing_evaluate
    {compute : Value Op Blk → EngineM Op Blk σ π (Answer π × CacheOutcome)}
    (hc : ∀ v, Continuing (compute v)) (v : Value Op Blk) :
    Continuing (evaluate E compute v) := by
  refine Steps.read_bind fun s => ?_
  cases s.engine.queryAnswers.lookup v with
  | some _ => exact StepsAt.pure _ _
  | none =>
    refine (hc v s).bind fun r s₁ _ => ?_
    obtain ⟨answer, outcome⟩ := r
    by_cases h : answer.isCompleted = true
    · simp only [h, if_true]
      exact (continuing_memoize v answer s₁).bind fun _ _ _ => StepsAt.pure _ _
    · simp only [h]
      exact StepsAt.pure _ _

end

theorem continuing_evaluateConstant (op : Op) : Continuing (evaluateConstant E op) := by
  rw [evaluateConstant]
  cases E.program.constantAttr op with
  | none => exact Steps.pure _
  | some attr =>
    cases h : E.models.attr attr with
    | none => simp only [h]; exact Steps.pure _
    | some model =>
      simp only [h]
      split
      · refine Steps.read_bind fun s => ?_
        cases s.cache.constants.lookup _ with
        | some _ => exact StepsAt.pure _ _
        | none =>
          exact (StepsAt.write (.storeConstant _ _ _ s)).bind fun _ _ _ => StepsAt.pure _ _
      · cases model.toEvalValue with
        | none => exact Steps.pure _
        | some payload => exact (continuing_allocate E payload).bind fun _ => Steps.pure _

theorem continuing_canonical (entry : Option ℕ) (results : List (Answer π)) (idx : ℕ) :
    Continuing (canonical entry results idx : EngineM Op Blk σ π (Answer π)) := by
  rw [canonical]
  cases results[idx]? with
  | none => exact Steps.stop _
  | some computed =>
    cases entry with
    | none => exact Steps.pure _
    | some entry => exact (continuing_readSlot entry idx).bind fun _ => Steps.pure _

variable [DecidableEq Op] [DecidableEq Blk]

theorem continuing_memoizeResults (op : Op) (entry : Option ℕ) (results : List (Answer π))
    (idx count : ℕ) : Continuing (memoizeResults E op entry results idx count) := by
  induction count generalizing idx with
  | zero => exact Steps.pure _
  | succ count ih =>
    refine (continuing_canonical entry results idx).bind fun a => ?_
    split
    · exact (continuing_memoize _ a).bind fun _ => ih (idx + 1)
    · exact ih (idx + 1)

theorem continuing_store (ha : ∀ v, Continuing (ask v)) (fuel : ℕ) (op : Op)
    (model : OpModel Op Blk σ π) (cached : Option CacheLookup) (results : List (Answer π)) :
    Continuing (store E ask fuel op model cached results) := by
  cases cached with
  | none => exact Steps.pure _
  | some cached =>
    refine Steps.read_bind fun s => ?_
    split
    · cases cached.entry with
      | some entry => exact (continuing_fill entry results s).bind fun _ _ _ => StepsAt.pure _ _
      | none =>
        exact (continuing_insert ha fuel op model cached results s).bind fun _ _ _ =>
          StepsAt.pure _ _
    · exact StepsAt.pure _ _

theorem continuing_evaluateOp (ha : ∀ v, Continuing (ask v)) (fuel : ℕ) (op : Op) (idx : ℕ)
    (model : OpModel Op Blk σ π) (cached : Option CacheLookup) :
    Continuing (evaluateOp E ask fuel op idx model cached) := by
  refine continuing_declareCost.bind fun charged => ?_
  cases charged with
  | false => exact Steps.pure _
  | true =>
    refine (continuing_note (by simp)).bind fun _ => (continuing_runScope ha _).bind fun results =>
      (continuing_require _ _).bind fun _ => (continuing_note (by simp)).bind fun _ =>
      (continuing_store ha fuel op model cached results).bind fun entry =>
      (continuing_memoizeResults op entry results 0 _).bind fun _ => ?_
    exact continuing_canonical entry results idx

theorem continuing_computeActive (ha : ∀ v, Continuing (ask v)) (fuel : ℕ) (op : Op) (idx : ℕ)
    (model : OpModel Op Blk σ π) : Continuing (computeActive E ask fuel op idx model) := by
  refine (continuing_runScope ha _).bind fun r => ?_
  rcases r with (_ | _) | status
  · exact (continuing_evaluateOp ha fuel op idx model none).bind fun _ => Steps.pure _
  · refine (continuing_lookup ha fuel op model).bind fun r => ?_
    rcases r with ⟨key, entry, searched⟩ | status
    · cases entry with
      | none => exact (continuing_evaluateOp ha fuel op idx model _).bind fun _ => Steps.pure _
      | some entry =>
        refine (continuing_readSlot entry idx).bind fun slot => ?_
        cases slot with
        | none => exact (continuing_evaluateOp ha fuel op idx model _).bind fun _ => Steps.pure _
        | some hit => exact Steps.pure _
    · exact Steps.pure _
  · exact Steps.pure _

theorem continuing_computeOp (ha : ∀ v, Continuing (ask v)) (fuel : ℕ) (op : Op) (idx : ℕ)
    (model : OpModel Op Blk σ π) : Continuing (computeOp E ask fuel op idx model) := by
  refine Steps.read_bind fun s => ?_
  split
  · exact StepsAt.pure _ _
  · refine StepsAt.bind (StepsAt.write (.note (by simp) rfl rfl rfl rfl rfl rfl rfl rfl))
      fun _ s₁ _ => ?_
    refine (continuing_computeActive ha fuel op idx model s₁).bind fun r s₂ _ => ?_
    exact (StepsAt.write (.note (by simp) rfl rfl rfl rfl rfl rfl rfl rfl)).bind fun _ _ _ =>
      StepsAt.pure _ _

theorem continuing_computeWith (ha : ∀ v, Continuing (ask v)) (fuel : ℕ) (v : Value Op Blk) :
    Continuing (computeWith E ask fuel v) := by
  cases v with
  | arg b i => exact Steps.read_bind fun s => StepsAt.pure _ _
  | result op idx =>
    refine (continuing_require _ _).bind fun _ => ?_
    cases h : E.models.op op with
    | some model => exact continuing_computeOp ha fuel op idx model
    | none => exact (continuing_evaluateConstant op).bind fun _ => Steps.pure _

/-- **Every step of `compute` continues the query.** -/
theorem continuing_compute (fuel depth : ℕ) (v : Value Op Blk) :
    Continuing (compute E fuel depth v) := by
  induction depth generalizing v with
  | zero => exact Steps.stop _
  | succ depth ih => exact continuing_computeWith (continuing_evaluate ih) fuel v

end Runs

end MlirInterpreter
