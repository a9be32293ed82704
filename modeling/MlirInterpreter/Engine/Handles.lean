import MlirInterpreter.Engine.Query

/-!
# The lifetimes of handles

An evaluated value lives as long as the allocator that owns it, and the allocator of a query dies
with the query.  This module shows that no handle outlives its storage.

* `HandleStore` is the invariant of all states: addresses in use are distinct, slots and constants
  hold live handles of the cache, and what the running query memoized or bound is alive.
* `CopiesSound` holds while a query runs: what `retain` remembers under an address is a copy of the
  value that lives at that address *now*.  It fails between queries, when addresses are freed, and
  is restored by `beginQuery`, which forgets all copies.

The models are arbitrary, except that they hand on only handles they were given: `Confined`.
-/

set_option autoImplicit false

namespace MlirInterpreter

open Recorded

variable {Op Blk σ π : Type}

/-! ## Confined models -/

/-- Every handle in an answer of `l` is among `held`. -/
def HeldBy (held : List (EvalValue π)) (l : List (Answer π)) : Prop :=
  ∀ a ∈ l, ∀ v : EvalValue π, a.value? = some v → v ∈ held

/-- A program that binds only handles it holds, and whose result `ok` accepts for what it holds in
the end.  It holds `held` at first, and then what it is answered and what it allocates. -/
def Confined {α : Type} (ok : List (EvalValue π) → α → Prop) :
    List (EvalValue π) → ScopeM Op Blk σ π α → Prop
  | held, .ret a => ok held a
  | held, .call (.query _) k => ∀ a : Answer π, Confined ok (a.value?.toList ++ held) (k a)
  | held, .call (.allocate _) k => ∀ v : EvalValue π, Confined ok (v :: held) (k v)
  | held, .call (.bind _ args) k => HeldBy held args ∧ Confined ok held (k ())
  | held, .call .declareCost k => ∀ r : Bool, Confined ok held (k r)
  | held, .call .freezeCache k => Confined ok held (k ())
  | held, .call .thawCache k => Confined ok held (k ())
  | held, .call (.unbind _) k => Confined ok held (k ())
  | held, .call .getWorld k => ∀ w : σ, Confined ok held (k w)
  | held, .call (.setWorld _) k => Confined ok held (k ())

/-- A model whose methods are confined, and which answers with handles it holds. -/
structure OpModel.Confined (model : OpModel Op Blk σ π) : Prop where
  isCacheable : MlirInterpreter.Confined (fun _ _ => True) [] model.isCacheable
  getHash : MlirInterpreter.Confined (fun _ _ => True) [] model.getHash
  isEquivalentTo : ∀ other,
    MlirInterpreter.Confined (fun _ _ => True) [] (model.isEquivalentTo other)
  evaluate : MlirInterpreter.Confined HeldBy [] model.evaluate

/-- All registered models are confined. -/
def Models.Confined (models : Models Op Blk σ π) : Prop :=
  ∀ op model, models.op op = some model → model.Confined

/-! ## The invariants -/

/-- A handle the running query may use: of a live storage, the cache's or the query's own. -/
def Usable (s : State Op Blk σ π) (v : EvalValue π) : Prop :=
  v ∈ s.heap ∧ (v.owner = .cache ∨ v.owner = .query s.queries)

/-- A live handle of the cache. -/
def CacheOwned (s : State Op Blk σ π) (v : EvalValue π) : Prop := v ∈ s.heap ∧ v.owner = .cache

section

variable [DecidableEq Op] [DecidableEq Blk]

/-- What holds of all handles in all states. -/
structure HandleStore (s : State Op Blk σ π) : Prop where
  /-- The storages alive have distinct addresses. -/
  nodup : (addresses s.heap).Nodup
  /-- Only the running query owns storages. -/
  queries : ∀ v ∈ s.heap, ∀ id, v.owner = .query id → id = s.queries
  slots : ∀ (e : ℕ) (entry : CacheEntry Op π) (i : ℕ) (a : Answer π) v,
    s.cache.arena[e]? = some entry → entry.results[i]? = some (some a) → a.value? = some v →
    CacheOwned s v
  constants : ∀ key v, s.cache.constants.lookup key = some (some v) → CacheOwned s v
  memo : ∀ u a v, s.memo u = some a → a.value? = some v → Usable s v
  bindings : ∀ key a v, s.engine.bindings.lookup key = some a → a.value? = some v → Usable s v
  /-- What an earlier query answered is alive and not a query's. -/
  answers : ∀ engine u a v, .queryEnded engine u a ∈ s.log → a.value? = some v →
    v ∈ s.heap ∧ (v.owner = .cache ∨ v.owner = .answers engine)

/-- What the cache's allocator remembers to have retained is a copy of what lives at that
address. -/
def CopiesSound (s : State Op Blk σ π) : Prop :=
  ∀ addr c, s.cache.copies.lookup addr = some c →
    CacheOwned s c ∧ ∃ v ∈ s.heap, v.addr = addr ∧ v.payload = c.payload

/-- What has to be shown of every state. -/
structure HandleGuar (s : State Op Blk σ π) : Prop where
  store : HandleStore s
  copies : s.engine.queryAllocator ≠ none → CopiesSound s
  /-- A slot was filled with a copy of a value of this query. -/
  filled : ∀ e i original copy, s.log.head? = some (.filled e i original copy) →
    Usable s original ∧ CacheOwned s copy ∧ copy.payload = original.payload
  /-- The answer handed out is a copy of a value of this query. -/
  handedOut : ∀ original copy, s.log.head? = some (.handedOut original copy) →
    Usable s original ∧ copy ∈ s.heap ∧ copy.payload = original.payload
  /-- Nothing of a query is left when it has ended. -/
  ended : ∀ engine u a, s.log.head? = some (.queryEnded engine u a) →
    (∀ v ∈ s.heap, ∀ id, v.owner ≠ .query id) ∧ (∀ u, s.memo u = none) ∧ s.engine.frames = [] ∧
      ∀ key, s.engine.bindings.lookup key = none

end

theorem Usable.mono {s t : State Op Blk σ π} {v : EvalValue π} (h : Usable s v)
    (hh : s.heap ⊆ t.heap) (hq : t.queries = s.queries) : Usable t v :=
  ⟨hh h.1, hq ▸ h.2⟩

theorem CacheOwned.mono {s t : State Op Blk σ π} {v : EvalValue π} (h : CacheOwned s v)
    (hh : s.heap ⊆ t.heap) : CacheOwned t v :=
  ⟨hh h.1, h.2⟩

theorem CacheOwned.usable {s : State Op Blk σ π} {v : EvalValue π} (h : CacheOwned s v) :
    Usable s v :=
  ⟨h.1, Or.inl h.2⟩

/-- Of the storages alive, an address names one. -/
theorem eq_of_addr_eq {heap : List (EvalValue π)} (h : (addresses heap).Nodup)
    {v w : EvalValue π} (hv : v ∈ heap) (hw : w ∈ heap) (ha : v.addr = w.addr) : v = w :=
  List.inj_on_of_nodup_map h hv hw ha

/-- A new storage has a new address. -/
theorem nodup_newStorage (mem : Malloc) {heap : List (EvalValue π)} (h : (addresses heap).Nodup)
    (owner : Owner) (payload : π) :
    (addresses (newStorage mem heap owner payload :: heap)).Nodup :=
  List.nodup_cons.mpr ⟨mem.pick_fresh _, h⟩

/-- `retain`, for an allocator whose copies are sound: the result is alive, the cache's or the
allocator's, and has the payload of the argument; and the copies stay sound. -/
theorem retain_sound (mem : Malloc) {owner : Owner} {heap : List (EvalValue π)}
    {copies : DenseMap ℕ (EvalValue π)} {v : EvalValue π} (hn : (addresses heap).Nodup)
    (hc : ∀ addr c, copies.lookup addr = some c →
      c ∈ heap ∧ c.owner = owner ∧ ∃ w ∈ heap, w.addr = addr ∧ w.payload = c.payload)
    (hv : v ∈ heap) :
    let r := retain mem owner heap copies v
    heap ⊆ r.heap ∧ (addresses r.heap).Nodup ∧ r.value ∈ r.heap ∧
      (r.value.owner = .cache ∨ r.value.owner = owner) ∧ r.value.payload = v.payload ∧
      (∀ w ∈ r.heap, w ∈ heap ∨ w.owner = owner) ∧
      ∀ addr c, r.copies.lookup addr = some c →
        c ∈ r.heap ∧ c.owner = owner ∧ ∃ w ∈ r.heap, w.addr = addr ∧ w.payload = c.payload := by
  simp only [retain]
  split
  · next hcached =>
    exact ⟨fun _ h => h, hn, hv, Or.inl (by simpa [EvalValue.isCached] using hcached), rfl,
      fun w hw => Or.inl hw, hc⟩
  · split
    · next c hlook =>
      obtain ⟨hmem, hown, w, hw, haddr, hpay⟩ := hc _ c hlook
      obtain rfl := eq_of_addr_eq hn hw hv haddr
      exact ⟨fun _ h => h, hn, hmem, Or.inr hown, hpay.symm, fun w hw => Or.inl hw, hc⟩
    · refine ⟨fun _ h => List.mem_cons_of_mem _ h, nodup_newStorage mem hn _ _, List.mem_cons_self,
        Or.inr rfl, rfl, fun w hw => ?_, fun addr c hlook => ?_⟩
      · rcases List.mem_cons.mp hw with rfl | hw
        · exact Or.inr rfl
        · exact Or.inl hw
      · rw [DenseMap.lookup_tryEmplace] at hlook
        split at hlook
        · next haddr =>
          obtain rfl := Option.some.inj hlook
          exact ⟨List.mem_cons_self, rfl, _, List.mem_cons_self, haddr.1.symm, rfl⟩
        · rw [DenseMap.lookup_insert'] at hlook
          split at hlook
          · next haddr =>
            obtain rfl := Option.some.inj hlook
            exact ⟨List.mem_cons_self, rfl, v, List.mem_cons_of_mem _ hv, haddr.symm, rfl⟩
          · obtain ⟨hmem, hown, w, hw, ha, hp⟩ := hc addr c hlook
            exact ⟨List.mem_cons_of_mem _ hmem, hown, w, List.mem_cons_of_mem _ hw, ha, hp⟩

/-! ## The theory -/

variable [DecidableEq Op] [DecidableEq Blk]

/-- What handles keep under confined models. -/
def handleTheory : Theory Op Blk σ π where
  contract := ⟨fun _ => True, HandleGuar, fun _ => True⟩
  Inv s := HandleStore s ∧ CopiesSound s
  Rel s s' := s'.engine.active = s.engine.active ∧ s.heap ⊆ s'.heap ∧ s'.queries = s.queries
  Own _ s s' := s'.engine.active = s.engine.active ∧ s.heap ⊆ s'.heap ∧ s'.queries = s.queries
  Pre _ _ := True
  Ans s _ a := ∀ v, a.value? = some v → Usable s v
  Within _ _ := True
  Uncached _ _ := True
  Key _ _ _ := True
  Missed _ _ _ _ := True
  Compared _ _ _ _ := True
  Found _ _ _ _ _ := True
  Kept _ _ _ := True
  Ready _ _ _ := True
  Results s _ l := ∀ a ∈ l, ∀ v, a.value? = some v → Usable s v
  Out s _ _ a := ∀ v, a.value? = some v → Usable s v

/-- Does an event hand a value on, or end a query? -/
def Event.isHandOver : Event Op Blk π → Bool
  | .filled .. => true
  | .handedOut .. => true
  | .queryEnded .. => true
  | _ => false

section Writes

variable {s t : State Op Blk σ π}

theorem HandleGuar.of_head (h : HandleStore s) (hc : CopiesSound s)
    (he : ∀ e, s.log.head? = some e → e.isHandOver = false) : HandleGuar s where
  store := h
  copies _ := hc
  filled _ _ _ _ heq := by simpa [Event.isHandOver] using he _ heq
  handedOut _ _ heq := by simpa [Event.isHandOver] using he _ heq
  ended _ _ _ heq := by simpa [Event.isHandOver] using he _ heq

/-- A write that touches neither the cache nor the storages. -/
theorem HandleStore.of_eq {e : Event Op Blk π} (h : HandleStore s) (hc : t.cache = s.cache)
    (hh : t.heap = s.heap) (hq : t.queries = s.queries) (hl : t.log = e :: s.log)
    (he : e.isHandOver = false)
    (hm : ∀ u a v, t.memo u = some a → a.value? = some v → Usable s v)
    (hb : ∀ key a v, t.engine.bindings.lookup key = some a → a.value? = some v → Usable s v) :
    HandleStore t where
  nodup := hh ▸ h.nodup
  queries := by rw [hh, hq]; exact h.queries
  slots := by simp only [CacheOwned, hc, hh]; exact h.slots
  constants := by simp only [CacheOwned, hc, hh]; exact h.constants
  memo u a v hu hv := (hm u a v hu hv).mono (by rw [hh]; exact List.Subset.refl _) hq
  bindings key a v hk hv := (hb key a v hk hv).mono (by rw [hh]; exact List.Subset.refl _) hq
  answers engine u a v hmem hv := by
    rw [hl, List.mem_cons] at hmem
    rw [hh]
    rcases hmem with rfl | hmem
    · simp [Event.isHandOver] at he
    · exact h.answers engine u a v hmem hv

omit [DecidableEq Op] [DecidableEq Blk] in
theorem CopiesSound.of_eq (h : CopiesSound s) (hc : t.cache = s.cache) (hh : t.heap = s.heap) :
    CopiesSound t := by
  simp only [CopiesSound, CacheOwned, hc, hh]
  exact h

theorem handleTheory_write {e : Event Op Blk π} (hs : HandleStore s ∧ CopiesSound s)
    (hc : t.cache = s.cache) (hh : t.heap = s.heap) (hq : t.queries = s.queries)
    (hl : t.log = e :: s.log) (he : e.isHandOver = false)
    (hm : ∀ u a v, t.memo u = some a → a.value? = some v → Usable s v)
    (hb : ∀ key a v, t.engine.bindings.lookup key = some a → a.value? = some v → Usable s v) :
    HandleGuar t ∧ HandleStore t ∧ CopiesSound t := by
  have hstore := hs.1.of_eq hc hh hq hl he hm hb
  have hcopies := hs.2.of_eq hc hh
  refine ⟨.of_head hstore hcopies ?_, hstore, hcopies⟩
  rw [hl]
  rintro _ ⟨⟩
  exact he

theorem handleTheory_allows {e : Event Op Blk π} (hs : HandleStore s ∧ CopiesSound s)
    (hc : t.cache = s.cache) (hh : t.heap = s.heap) (hq : t.queries = s.queries)
    (hl : t.log = e :: s.log) (he : e.isHandOver = false)
    (hm : ∀ u a v, t.memo u = some a → a.value? = some v → Usable s v)
    (hb : ∀ key a v, t.engine.bindings.lookup key = some a → a.value? = some v → Usable s v)
    (ha : t.engine.active = s.engine.active) : handleTheory.Allows s t := by
  intro _
  obtain ⟨hg, hi⟩ := handleTheory_write hs hc hh hq hl he hm hb
  exact ⟨hg, hi, ha, by rw [hh]; exact List.Subset.refl _, hq⟩

/-- An event alone. -/
theorem handleTheory_note {e : Event Op Blk π} (hs : HandleStore s ∧ CopiesSound s)
    (he : e.isHandOver = false) : handleTheory.Allows s (s.note e) :=
  handleTheory_allows hs rfl rfl rfl rfl he hs.1.memo hs.1.bindings rfl

/-- A new storage of the running query. -/
theorem handleTheory_addStorage (mem : Malloc) (payload : π)
    (hs : HandleStore s ∧ CopiesSound s) :
    let v := newStorage mem s.heap (.query s.queries) payload
    handleTheory.Allows s ((s.addStorage v).note (.allocated v)) ∧
      Usable ((s.addStorage v).note (.allocated v)) v := by
  intro v
  have hsub : s.heap ⊆ v :: s.heap := List.subset_cons_self _ _
  refine ⟨fun _ => ?_, List.mem_cons_self, Or.inr rfl⟩
  have hstore : HandleStore ((s.addStorage v).note (.allocated v)) := by
    constructor
    · exact nodup_newStorage mem hs.1.nodup _ _
    · intro w hw id hid
      rcases List.mem_cons.mp hw with rfl | hw
      · have hid' : id = s.queries := by simpa [v, newStorage] using hid.symm
        exact hid'
      · exact hs.1.queries w hw id hid
    · exact fun e entry i a w he hi hw => (hs.1.slots e entry i a w he hi hw).mono hsub
    · exact fun key w hk => (hs.1.constants key w hk).mono hsub
    · exact fun u a w hu hw => (hs.1.memo u a w hu hw).mono hsub rfl
    · exact fun key a w hk hw => (hs.1.bindings key a w hk hw).mono hsub rfl
    · intro engine u a w hmem hw
      rcases List.mem_cons.mp hmem with hmem | hmem
      · cases hmem
      · exact (hs.1.answers engine u a w hmem hw).imp_left (fun h => hsub h)
  have hcopies : CopiesSound ((s.addStorage v).note (.allocated v)) := by
    intro addr c hc
    obtain ⟨hown, w, hw, ha, hp⟩ := hs.2 addr c hc
    exact ⟨hown.mono hsub, w, hsub hw, ha, hp⟩
  exact ⟨.of_head hstore hcopies (by rintro _ ⟨⟩; rfl), ⟨hstore, hcopies⟩, rfl, hsub, rfl⟩

/-- A slot is filled with what the cache's allocator retains of a usable value. -/
theorem handleTheory_fillSlot (mem : Malloc) {e idx : ℕ} {v : EvalValue π}
    (hs : HandleStore s ∧ CopiesSound s) (hv : Usable s v) :
    let r := retain mem .cache s.heap s.cache.copies v
    handleTheory.Allows s ((s.fillSlot e idx r).note (.filled e idx v r.value)) := by
  intro r _
  obtain ⟨hsub, hnodup, hmem, hown, hpay, hnew, hcop⟩ := retain_sound mem (v := v) hs.1.nodup
    (fun addr c hc => ⟨(hs.2 addr c hc).1.1, (hs.2 addr c hc).1.2, (hs.2 addr c hc).2⟩) hv.1
  have hown : r.value.owner = .cache := hown.elim id id
  have hstore : HandleStore ((s.fillSlot e idx r).note (.filled e idx v r.value)) := by
    constructor
    · exact hnodup
    · intro w hw id hid
      rcases hnew w hw with hw | hw
      · exact hs.1.queries w hw id hid
      · simp [hw] at hid
    · intro e' entry' i a w he' hi hw
      obtain ⟨entry, he, -, -, hslot, -⟩ := State.fillSlot_arena he'
      rcases hslot i a hi with hi | ⟨-, -, rfl⟩
      · exact (hs.1.slots e' entry i a w he hi hw).mono hsub
      · obtain rfl : r.value = w := by simpa using hw
        exact ⟨hmem, hown⟩
    · exact fun key w hk => (hs.1.constants key w hk).mono hsub
    · exact fun u a w hu hw => (hs.1.memo u a w hu hw).mono hsub rfl
    · exact fun key a w hk hw => (hs.1.bindings key a w hk hw).mono hsub rfl
    · intro engine u a w hmem hw
      rcases List.mem_cons.mp hmem with hmem | hmem
      · cases hmem
      · exact (hs.1.answers engine u a w hmem hw).imp_left (fun h => hsub h)
  have hcopies : CopiesSound ((s.fillSlot e idx r).note (.filled e idx v r.value)) := by
    intro addr c hc
    obtain ⟨h₁, h₂, h₃⟩ := hcop addr c hc
    exact ⟨⟨h₁, h₂⟩, h₃⟩
  refine ⟨⟨hstore, fun _ => hcopies, ?_, ?_, ?_⟩, ⟨hstore, hcopies⟩, rfl, hsub, rfl⟩
  · intro _ _ original copy heq
    simp only [State.note, List.head?_cons, Option.some.injEq, Event.filled.injEq] at heq
    obtain ⟨-, -, rfl, rfl⟩ := heq
    exact ⟨hv.mono hsub rfl, ⟨hmem, hown⟩, hpay⟩
  · intro _ _ heq
    simp [State.note] at heq
  · intro _ _ _ heq
    simp [State.note] at heq

/-- `fill` copies only usable values. -/
theorem handleTheory_fill {E : Setup Op Blk σ π} {l : List (Answer π)} {e : ℕ}
    (hs : HandleStore s ∧ CopiesSound s)
    (hl : ∀ a ∈ l, ∀ v, a.value? = some v → Usable s v) :
    wp handleTheory.contract (fill E e l) s fun _ t =>
      (HandleStore t ∧ CopiesSound t) ∧ handleTheory.Rel s t := by
  let J : ℕ → State Op Blk σ π → Prop := fun _ t =>
    (HandleStore t ∧ CopiesSound t) ∧ handleTheory.Rel s t
  refine wp_bind (wp_mono (wp_fillSlots (J := J) (fun j a t hj ht => ?_)
    ⟨hs, rfl, List.Subset.refl _, rfl⟩) ?_)
  · refine wp_fillSlot (fun _ => trivial) (fun _ => ht) (fun _ _ _ _ => ht) fun ent v ha _ _ => ?_
    have hv : Usable t v := (hl a (List.mem_of_getElem? hj) v (by simp [ha])).mono ht.2.2.1 ht.2.2.2
    intro r u hr
    obtain ⟨hg, hi, hrel⟩ := handleTheory_fillSlot E.mem ht.1 hv hr
    exact ⟨hg, hi, hrel.1.trans ht.2.1, List.Subset.trans ht.2.2.1 hrel.2.1,
      hrel.2.2.trans ht.2.2.2⟩
  · intro _ t ht
    refine wp_record fun hr => ?_
    obtain ⟨hg, hi, hrel⟩ := handleTheory_note (e := .stored e) ht.1 rfl hr
    exact ⟨hg, hi, hrel.1.trans ht.2.1, List.Subset.trans ht.2.2.1 hrel.2.1,
      hrel.2.2.trans ht.2.2.2⟩

/-- A new entry has no handles. -/
theorem handleTheory_append (op : Op) (key : HashCode) {slots : ℕ}
    (hs : HandleStore s ∧ CopiesSound s) :
    handleTheory.Allows s
      ((s.append op key slots).note (.appended op key s.cache.arena.length)) := by
  intro _
  have hstore : HandleStore
      ((s.append op key slots).note (.appended op key s.cache.arena.length)) := by
    refine ⟨hs.1.nodup, hs.1.queries, ?_, hs.1.constants, hs.1.memo, hs.1.bindings, ?_⟩
    · intro e entry i a v he hi hv
      rcases State.append_arena he with he | ⟨-, rfl⟩
      · exact hs.1.slots e entry i a v he hi hv
      · simp [List.getElem?_replicate] at hi
    · intro engine u a v hmem hv
      rcases List.mem_cons.mp hmem with hmem | hmem
      · cases hmem
      · exact hs.1.answers engine u a v hmem hv
  exact ⟨.of_head hstore hs.2 (by rintro _ ⟨⟩; rfl), ⟨hstore, hs.2⟩, rfl, List.Subset.refl _, rfl⟩

/-- The value of a constant is converted into the cache. -/
theorem handleTheory_storeConstant (mem : Malloc) (attr : Attribute) (type : Option Ty)
    (payload : Option π) (hs : HandleStore s ∧ CopiesSound s) :
    let value := payload.map (newStorage mem s.heap .cache)
    let t := (s.storeConstant (attr, type) value).note (.constantStored attr type value)
    handleTheory.Allows s t ∧ ∀ v, value = some v → Usable t v := by
  intro value t
  have hsub : s.heap ⊆ t.heap := List.subset_append_right _ _
  have hval : ∀ v, value = some v → CacheOwned t v := by
    intro v hv
    refine ⟨List.mem_append_left _ (by simp [hv]), ?_⟩
    obtain ⟨p, -, rfl⟩ := Option.map_eq_some_iff.mp hv
    rfl
  refine ⟨fun _ => ?_, fun v hv => (hval v hv).usable⟩
  have hstore : HandleStore t := by
    constructor
    · cases payload with
      | none => exact hs.1.nodup
      | some p => exact nodup_newStorage mem hs.1.nodup _ _
    · intro w hw id hid
      rcases List.mem_append.mp hw with hw | hw
      · simp [(hval w (by simpa using hw)).2] at hid
      · exact hs.1.queries w hw id hid
    · exact fun e entry i a w he hi hw => (hs.1.slots e entry i a w he hi hw).mono hsub
    · intro key w hk
      simp only [t, State.note, State.storeConstant, DenseMap.lookup_tryEmplace] at hk
      split at hk
      · exact hval w (Option.some.inj hk)
      · exact (hs.1.constants key w hk).mono hsub
    · exact fun u a w hu hw => (hs.1.memo u a w hu hw).mono hsub rfl
    · exact fun key a w hk hw => (hs.1.bindings key a w hk hw).mono hsub rfl
    · intro engine u a w hmem hw
      rcases List.mem_cons.mp hmem with hmem | hmem
      · cases hmem
      · exact (hs.1.answers engine u a w hmem hw).imp_left (fun h => hsub h)
  have hcopies : CopiesSound t := by
    intro addr c hc
    obtain ⟨hown, w, hw, ha, hp⟩ := hs.2 addr c hc
    exact ⟨hown.mono hsub, w, hsub hw, ha, hp⟩
  exact ⟨.of_head hstore hcopies (by rintro _ ⟨⟩; rfl), ⟨hstore, hcopies⟩, rfl, hsub, rfl⟩

theorem handleTheory_constant {E : Setup Op Blk σ π} {op : Op}
    (hs : HandleStore s ∧ CopiesSound s) :
    wp handleTheory.contract (evaluateConstant E op) s fun r t =>
      (HandleStore t ∧ CopiesSound t) ∧ handleTheory.Rel s t ∧
        ∀ v, r.1 = some v → Usable t v := by
  have hrefl : handleTheory.Rel s s := ⟨rfl, List.Subset.refl _, rfl⟩
  refine wp_evaluateConstant (Q := fun value t => (HandleStore t ∧ CopiesSound t) ∧
    handleTheory.Rel s t ∧ ∀ v, value = some v → Usable t v)
      (fun _ => ⟨hs, hrefl, by simp⟩) ?_ ?_ ?_
  · rintro attr model value - - - hlook
    refine ⟨hs, hrefl, ?_⟩
    rintro v rfl
    exact (hs.1.constants _ v hlook).usable
  · rintro attr model - - -
    intro type value t hr
    obtain ⟨hallow, huse⟩ := handleTheory_storeConstant E.mem attr type model.toEvalValue hs
    obtain ⟨hg, hi, hrel⟩ := hallow hr
    exact ⟨hg, hi, hrel, huse⟩
  · rintro attr model payload - - -
    intro v t hr
    obtain ⟨hallow, huse⟩ := handleTheory_addStorage E.mem payload hs
    obtain ⟨hg, hi, hrel⟩ := hallow hr
    refine ⟨hg, hi, hrel, ?_⟩
    rintro _ ⟨⟩
    exact huse

/-- A confined program keeps the invariants, and holds only usable handles in the end. -/
theorem handleTheory_runScope {E : Setup Op Blk σ π}
    {ask : Value Op Blk → EngineM Op Blk σ π (Answer π)} {active : Finset Op}
    (ha : handleTheory.Asks ask active) {α : Type} {ok : List (EvalValue π) → α → Prop}
    (p : ScopeM Op Blk σ π α) (held : List (EvalValue π)) (hp : Confined ok held p) :
    ∀ s, (HandleStore s ∧ CopiesSound s) → s.engine.active = active →
      (∀ v ∈ held, Usable s v) →
      wp handleTheory.contract (runScope E ask p) s fun a t =>
        (HandleStore t ∧ CopiesSound t) ∧ handleTheory.Rel s t ∧
          ∃ held', (∀ v ∈ held', Usable t v) ∧ ok held' a := by
  induction p generalizing held with
  | ret a =>
    exact fun s hs _ hheld =>
      wp_pure ⟨hs, ⟨rfl, List.Subset.refl _, rfl⟩, held, hheld, hp⟩
  | call i k ih =>
    intro s hs hact hheld
    -- The rest of the program, after a step from `s` to `t`.
    have rest : ∀ r held' t, Confined ok held' (k r) → (HandleStore t ∧ CopiesSound t) →
        handleTheory.Rel s t → (∀ v ∈ held', Usable t v) →
        wp handleTheory.contract (runScope E ask (k r)) t fun a u =>
          (HandleStore u ∧ CopiesSound u) ∧ handleTheory.Rel s u ∧
            ∃ held', (∀ v ∈ held', Usable u v) ∧ ok held' a := by
      intro r held' t hc ht hrel hheld'
      refine wp_mono (ih r held' hc t ht (hrel.1.trans hact) hheld') fun a u hu => ?_
      exact ⟨hu.1, ⟨hu.2.1.1.trans hrel.1, List.Subset.trans hrel.2.1 hu.2.1.2.1,
        hu.2.1.2.2.trans hrel.2.2⟩, hu.2.2⟩
    -- A write that changes nothing for the handles.
    have write : ∀ {t : State Op Blk σ π} (r : i.Response), handleTheory.Allows s t →
        Confined ok held (k r) → handleTheory.contract.rely t →
        handleTheory.contract.guar t ∧
          wp handleTheory.contract (runScope E ask (k r)) t fun a u =>
            (HandleStore u ∧ CopiesSound u) ∧ handleTheory.Rel s u ∧
              ∃ held', (∀ v ∈ held', Usable u v) ∧ ok held' a := by
      intro t r hallow hc hr
      obtain ⟨hg, ht, hrel⟩ := hallow hr
      exact ⟨hg, rest r held t hc ht hrel fun v hv => (hheld v hv).mono hrel.2.1 hrel.2.2⟩
    refine Prog.wp_run_call ?_
    cases i with
    | query v =>
      refine wp_bind (wp_mono (ha.spec v s hs trivial hact) fun a t ⟨ht, hrel, hans⟩ => ?_)
      refine wp_bind (wp_record fun hr => ?_)
      obtain ⟨hg, hu, hrel'⟩ := handleTheory_note (e := .answered v a) ht rfl hr
      refine ⟨hg, wp_pure (rest a _ _ (hp a) hu ⟨hrel'.1.trans hrel.1,
        List.Subset.trans hrel.2.1 hrel'.2.1, hrel'.2.2.trans hrel.2.2⟩ fun w hw => ?_)⟩
      rcases List.mem_append.mp hw with hw | hw
      · exact hans w (by simpa using hw)
      · exact (hheld w hw).mono hrel.2.1 hrel.2.2
    | declareCost =>
      refine wp_declareCost (fun _ => ?_) fun _ hr => ?_
      · exact rest false held s (hp false) hs ⟨rfl, List.Subset.refl _, rfl⟩ hheld
      · exact write true (handleTheory_allows hs rfl rfl rfl rfl rfl hs.1.memo hs.1.bindings rfl)
          (hp true) hr
    | freezeCache =>
      exact wp_record fun hr => write () (handleTheory_allows hs rfl rfl rfl rfl rfl hs.1.memo
        hs.1.bindings rfl) hp hr
    | thawCache =>
      refine wp_bind (wp_read (wp_bind (wp_require (fun _ => trivial) fun _ => ?_)))
      exact wp_record fun hr => write () (handleTheory_allows hs rfl rfl rfl rfl rfl hs.1.memo
        hs.1.bindings rfl) hp hr
    | bind block args =>
      refine wp_bind (wp_read (wp_bind (wp_require (fun _ => trivial) fun _ => ?_)))
      refine wp_bind (wp_require (fun _ => trivial) fun _ => wp_record fun hr => ?_)
      refine write () (handleTheory_allows hs rfl rfl rfl rfl rfl hs.1.memo
        (fun key a v hk hv => ?_) rfl) hp.2 hr
      simp only [State.note, State.bind, DenseMap.lookup_tryEmplaceAll, Option.or_eq_some_iff] at hk
      rcases hk with hk | ⟨-, hk⟩
      · exact hs.1.bindings key a v hk hv
      · obtain ⟨q, hq, rfl⟩ := Option.map_eq_some_iff.mp hk
        exact hheld v (hp.1 _ (List.of_mem_zip (List.mem_of_find?_eq_some hq)).2 v hv)
    | unbind block =>
      refine wp_bind (wp_read ?_)
      cases s.engine.frames.getLast? with
      | none => exact wp_stop trivial
      | some frame =>
        refine wp_bind (wp_require (fun _ => trivial) fun _ => wp_record fun hr => ?_)
        refine write () (handleTheory_allows hs rfl rfl rfl rfl rfl (fun u a v hu hv => ?_)
          (fun key a v hk hv => ?_) rfl) hp hr
        · simp only [State.memo, State.note, State.unbind, DenseMap.lookup_eraseAll] at hu
          split at hu
          · simp at hu
          · exact hs.1.memo u a v hu hv
        · simp only [State.note, State.unbind, DenseMap.lookup_eraseAll] at hk
          split at hk
          · simp at hk
          · exact hs.1.bindings key a v hk hv
    | allocate payload =>
      refine wp_bind (wp_read (wp_bind (wp_record fun hr => ?_)))
      obtain ⟨hallow, huse⟩ := handleTheory_addStorage E.mem payload hs
      obtain ⟨hg, ht, hrel⟩ := hallow hr
      refine ⟨hg, wp_pure (rest _ _ _ (hp _) ht hrel fun w hw => ?_)⟩
      rcases List.mem_cons.mp hw with rfl | hw
      · exact huse
      · exact (hheld w hw).mono hrel.2.1 hrel.2.2
    | getWorld =>
      exact wp_bind (wp_read (wp_pure (rest s.world held s (hp _) hs
        ⟨rfl, List.Subset.refl _, rfl⟩ hheld)))
    | setWorld w =>
      exact wp_record fun hr => write () (handleTheory_allows hs rfl rfl rfl rfl rfl hs.1.memo
        hs.1.bindings rfl) hp hr

/-- A usable answer may be memoized. -/
theorem handleTheory_memoize {P : Program Op Blk} {v : Value Op Blk} {a : Answer π}
    (hs : HandleStore s ∧ CopiesSound s) (ha : ∀ w, a.value? = some w → Usable s w) :
    handleTheory.Allows s ((s.memoize P v a).note (.memoized v a)) := by
  refine handleTheory_allows hs rfl rfl rfl rfl rfl (fun u b w hu hw => ?_) hs.1.bindings rfl
  simp only [State.memo, State.note, State.memoize, DenseMap.lookup_insert'] at hu
  split at hu
  · exact ha w (Option.some.inj hu ▸ hw)
  · exact hs.1.memo u b w hu hw

end Writes

/-- **The theory of handles holds for confined models.** -/
theorem handleTheory_sound [Fintype Op] {E : Setup Op Blk σ π} (hE : E.models.Confined) :
    handleTheory.Sound E where
  rel_refl s := ⟨rfl, List.Subset.refl _, rfl⟩
  rel_trans a b c h h' :=
    ⟨h'.1.trans h.1, List.Subset.trans h.2.1 h'.2.1, h'.2.2.trans h.2.2⟩
  own_of_rel _ _ _ h := h
  own_trans _ a b c h h' :=
    ⟨h'.1.trans h.1, List.Subset.trans h.2.1 h'.2.1, h'.2.2.trans h.2.2⟩
  own_active _ _ _ h := h.1
  ans_memoized s v a hm h w hw := (h w hw).mono hm.rel.2.1 hm.rel.2.2
  within_stable _ _ _ _ _ := trivial
  unevaluated_stable _ _ _ _ _ _ := trivial
  running_stable _ _ _ _ _ _ := trivial
  missed_stable _ _ _ _ _ _ _ _ := trivial
  found_stable _ _ _ _ _ _ _ _ _ := trivial
  kept_stable _ _ _ _ _ _ _ := trivial
  results_stable s s' op l _ hd h a ha w hw := (h a ha w hw).mono hd.own.2.1 hd.own.2.2
  unanswered _ _ _ _ _ := trivial
  memo_hit s v a hs _ hm w hw := hs.1.memo v a w hm hw
  memo_add s s' v a _ hm ha _ _ := handleTheory_memoize hm.inv ha
  arg s b i hs _ w hw := by
    cases hb : s.engine.bindings.lookup (b, i) with
    | none => simp [hb] at hw
    | some a => exact hs.1.bindings (b, i) a w hb (by simpa [hb] using hw)
  invalid _ _ _ _ _ _ := trivial
  constant s op i _ hs _ _ := wp_mono (handleTheory_constant hs) fun r t ht => ht
  cycle _ _ _ _ _ _ _ _ _ := by simp [handleTheory]
  enter s op i model _ hs _ _ _ _ _ := by
    obtain ⟨hg, hi⟩ := handleTheory_write (t := (s.enter op).note (.entered op)) hs rfl rfl rfl
      rfl rfl hs.1.memo hs.1.bindings
    exact ⟨hg, hi, trivial⟩
  leave s s' op i a hs _ _ hop hd hout _ := by
    obtain ⟨hg, hi⟩ := handleTheory_write (t := (s'.leave op).note (.left op)) hd.inv
      rfl rfl rfl rfl rfl hd.inv.1.memo hd.inv.1.bindings
    refine ⟨hg, hi, ⟨?_, hd.own.2.1, hd.own.2.2⟩, hout⟩
    have hact : s'.engine.active = Insert.insert op s.engine.active := hd.own.1
    simp [State.note, State.leave, hact, hop]
  cacheable s op model ask hm ha hs _ _ :=
    wp_mono (handleTheory_runScope ha _ [] (hE op model hm).isCacheable s hs rfl (by simp))
      fun r t ht => ⟨ht.1, ht.2.1, fun _ => trivial, fun _ => trivial, fun _ _ => trivial,
        fun _ _ _ _ => by simp [handleTheory]⟩
  hash s op model ask hm ha hs _ _ _ :=
    wp_mono (handleTheory_runScope ha _ [] (hE op model hm).getHash s hs rfl (by simp))
      fun r t ht => ⟨ht.1, ht.2.1, fun _ _ => trivial, fun _ _ _ _ => by simp [handleTheory]⟩
  unevaluated_search _ _ _ _ _ := trivial
  searching s op key hs _ _ := .of_allows (handleTheory_note hs rfl) id trivial trivial
  candidate_range _ _ _ _ _ _ _ := trivial
  scan_length _ _ _ _ _ _ _ := trivial
  own s op key n e entry hs _ _ _ _ _ := .of_allows (handleTheory_note hs rfl) id trivial trivial
  shape s op key n e entry hs _ _ _ _ _ _ :=
    .of_allows (handleTheory_note hs rfl) id trivial trivial
  equivalent s op key n e entry model ask hm ha hs _ _ _ _ _ _ :=
    wp_mono (handleTheory_runScope ha _ [] ((hE op model hm).isEquivalentTo entry.op) s hs rfl
      (by simp)) fun r t ht => ⟨ht.1, ht.2.1, trivial⟩
  skipped s op key n e entry st hs _ _ _ _ _ _ _ :=
    .of_allows (handleTheory_note hs rfl) id trivial trivial
  different s op key n e entry hs _ _ _ _ _ _ _ :=
    .of_allows (handleTheory_note hs rfl) id trivial trivial
  matching s op key n e entry hs _ _ _ _ _ _ _ :=
    .of_allows (handleTheory_note hs rfl) id trivial trivial
  exhausted _ _ _ _ _ _ _ _ _ _ := by simp [handleTheory]
  charge s op i cached hs _ _ _ _ _ hr := by
    obtain ⟨hg, hi, hrel⟩ := handleTheory_allows (t := s.charge.note .charged) hs rfl rfl rfl
      rfl rfl hs.1.memo hs.1.bindings rfl hr
    refine ⟨hg, fun hr' => ?_⟩
    obtain ⟨hg', hi', hrel'⟩ := handleTheory_note (e := .evaluating op) hi rfl hr'
    exact ⟨hg', hi', ⟨hrel'.1.trans hrel.1, List.Subset.trans hrel.2.1 hrel'.2.1,
      hrel'.2.2.trans hrel.2.2⟩, trivial, trivial, trivial⟩
  evaluates s op model ask cached hm ha hs _ _ := by
    refine wp_mono (handleTheory_runScope ha _ [] (hE op model hm).evaluate s hs rfl (by simp)) ?_
    rintro l t ⟨ht, hrel, held, hheld, hok⟩
    exact ⟨ht, hrel, fun a ha v hv => hheld v (hok a ha v hv), trivial⟩
  count _ _ _ _ _ _ _ := trivial
  evaluated s op l cached hs _ _ _ _ _ :=
    .of_allows (handleTheory_note hs rfl) id trivial ⟨trivial, trivial⟩
  evaluated_stable _ _ _ _ _ _ _ := trivial
  ready_stable _ _ _ _ _ _ _ := trivial
  ready s op cached _ _ _ _ _ := by
    rcases cached with ⟨key, _ | e, n⟩ <;> trivial
  reuse s op key n e l hs _ _ _ := handleTheory_note hs rfl
  fill s₀ s op e l hs _ _ hl _ _ _ _ := handleTheory_fill hs hl
  append s₀ s op key n l hs _ _ _ hl _ _ _ _ := by
    refine wp_bind (wp_read (wp_bind (wp_record fun hr => ?_)))
    obtain ⟨hg, hi, hrel⟩ := handleTheory_append op key hs hr
    refine ⟨hg, wp_bind (wp_mono (handleTheory_fill hi fun a ha v hv =>
      (hl a ha v hv).mono hrel.2.1 hrel.2.2) fun _ u hu => wp_pure ⟨hu.1, ?_, trivial, trivial⟩)⟩
    exact ⟨hu.2.1.trans hrel.1, List.Subset.trans hrel.2.1 hu.2.2.1, hu.2.2.2.trans hrel.2.2⟩
  kept _ _ _ _ _ _ _ _ := trivial
  kept_range _ _ _ _ _ _ _ _ := trivial
  kept_slot s op e entry i a hs _ _ he hi v hv := (hs.1.slots e entry i a v he hi hv).usable
  unstored _ _ _ _ _ _ _ _ _ _ := trivial
  unstored_stable _ _ _ _ _ _ _ _ := trivial
  result s op l i a _ _ hl hi _ := hl a (List.mem_of_getElem? hi)
  memo_own s op i a hs _ ha _ _ _ := handleTheory_memoize hs ha
  hit s op key n e entry i a hs _ _ _ he hi v hv := (hs.1.slots e entry i a v he hi hv).usable
  finish _ _ _ _ _ _ _ _ _ _ h := h

/-! ## Every query, every history -/

/-- Between two queries nothing belongs to a query. -/
structure HandlesAtRest (s : State Op Blk σ π) : Prop where
  store : HandleStore s
  owners : ∀ v ∈ s.heap, ∀ id, v.owner ≠ .query id
  memo : ∀ u, s.memo u = none
  bindings : ∀ key, s.engine.bindings.lookup key = none
  frames : s.engine.frames = []
  queryAllocator : s.engine.queryAllocator = none

omit [DecidableEq Op] in
theorem Engine.scopesEnded_iff {engine : Engine Op Blk π} :
    engine.scopesEnded = true ↔ engine.frames = [] ∧
      (∀ key, engine.bindings.lookup key = none) ∧ engine.freezes = 0 := by
  simp [Engine.scopesEnded, DenseMap.isEmpty_iff, and_assoc]

theorem HandlesAtRest.guar {s : State Op Blk σ π} (h : HandlesAtRest s)
    (hl : ∀ e, s.log.head? = some e → (∃ engine u a, e = .queryEnded engine u a) ∨
      e.isHandOver = false) : HandleGuar s where
  store := h.store
  copies hq := absurd h.queryAllocator hq
  filled _ _ _ _ heq := by simpa [Event.isHandOver] using hl _ heq
  handedOut _ _ heq := by simpa [Event.isHandOver] using hl _ heq
  ended _ _ _ _ := ⟨h.owners, h.memo, h.frames, h.bindings⟩

section Histories

variable {E : Setup Op Blk σ π}

/-- A query starts without any copies. -/
theorem HandlesAtRest.beginQuery {s : State Op Blk σ π} (h : HandlesAtRest s)
    (engine budget : ℕ) (value : Value Op Blk) :
    let t := (s.beginQuery engine budget).note (.queryStarted engine budget value)
    HandleGuar t ∧ HandleStore t ∧ CopiesSound t := by
  intro t
  have hstore : HandleStore t := by
    refine ⟨h.store.nodup, fun v hv id hid => absurd hid (h.owners v hv id), h.store.slots,
      h.store.constants, fun u a v hu _ => ?_, fun key a v hk _ => ?_, fun e u a v hmem hv => ?_⟩
    · exact absurd (hu.symm.trans (h.memo u)) (by simp)
    · exact absurd (hk.symm.trans (h.bindings key)) (by simp)
    · rcases List.mem_cons.mp hmem with hmem | hmem
      · cases hmem
      · exact h.store.answers e u a v hmem hv
  have hcopies : CopiesSound t := by
    intro addr c hc
    simp [t, State.note, State.beginQuery] at hc
  exact ⟨.of_head hstore hcopies (by rintro _ ⟨⟩; rfl), hstore, hcopies⟩

/-- The answer of a query is copied out of it. -/
theorem handleTheory_handOut (mem : Malloc) {s : State Op Blk σ π}
    (hs : HandleStore s ∧ CopiesSound s) {engine : ℕ} (hempty : s.answerCopies engine = ∅)
    {v : EvalValue π} (hv : Usable s v) :
    let r := retain mem (.answers engine) s.heap (s.answerCopies engine) v
    let t := (s.retainAnswer engine r).note (.handedOut v r.value)
    HandleGuar t ∧ (HandleStore t ∧ CopiesSound t) ∧ r.value ∈ t.heap ∧
      (r.value.owner = .cache ∨ r.value.owner = .answers engine) := by
  intro r t
  have hsound : ∀ addr c, (s.answerCopies engine).lookup addr = some c → c ∈ s.heap ∧
      c.owner = .answers engine ∧ ∃ w ∈ s.heap, w.addr = addr ∧ w.payload = c.payload :=
    fun addr c hc => by simp [hempty] at hc
  obtain ⟨hsub, hnodup, hmem, hown, hpay, hnew, -⟩ := retain_sound mem hs.1.nodup hsound hv.1
  have hstore : HandleStore t := by
    constructor
    · exact hnodup
    · intro w hw id hid
      rcases hnew w hw with hw | hw
      · exact hs.1.queries w hw id hid
      · simp [hw] at hid
    · exact fun e entry i a w he hi hw => (hs.1.slots e entry i a w he hi hw).mono hsub
    · exact fun key w hk => (hs.1.constants key w hk).mono hsub
    · exact fun u a w hu hw => (hs.1.memo u a w hu hw).mono hsub rfl
    · exact fun key a w hk hw => (hs.1.bindings key a w hk hw).mono hsub rfl
    · intro e u a w hmem' hw
      rcases List.mem_cons.mp hmem' with hmem' | hmem'
      · cases hmem'
      · exact (hs.1.answers e u a w hmem' hw).imp_left (fun h => hsub h)
  have hcopies : CopiesSound t := by
    intro addr c hc
    obtain ⟨hco, w, hw, ha, hp⟩ := hs.2 addr c hc
    exact ⟨hco.mono hsub, w, hsub hw, ha, hp⟩
  refine ⟨⟨hstore, fun _ => hcopies, ?_, ?_, ?_⟩, ⟨hstore, hcopies⟩, hmem, hown⟩
  · intro _ _ _ _ heq
    simp [t, State.note] at heq
  · intro original copy heq
    simp only [t, State.note, List.head?_cons, Option.some.injEq, Event.handedOut.injEq] at heq
    obtain ⟨rfl, rfl⟩ := heq
    exact ⟨hv.mono hsub rfl, hmem, hpay⟩
  · intro _ _ _ heq
    simp [t, State.note] at heq

/-- When a query ends its storages die, and nothing refers to them. -/
theorem HandleStore.endQuery {s : State Op Blk σ π} (hs : HandleStore s)
    (hclean : s.engine.scopesEnded = true) {engine : ℕ} (value : Value Op Blk) {a : Answer π}
    (ha : ∀ v, a.value? = some v → v ∈ s.heap ∧ (v.owner = .cache ∨ v.owner = .answers engine)) :
    HandlesAtRest (s.endQuery.note (.queryEnded engine value a)) := by
  obtain ⟨hframes, hbindings, -⟩ := Engine.scopesEnded_iff.mp hclean
  have keep : ∀ v : EvalValue π, v ∈ s.heap → (∀ id, v.owner ≠ .query id) →
      v ∈ (s.endQuery.note (.queryEnded engine value a)).heap := fun v hv ho =>
    List.mem_filter.mpr ⟨hv, by simpa using ho s.queries⟩
  have hdead : ∀ v ∈ (s.endQuery.note (.queryEnded engine value a)).heap, ∀ id,
      v.owner ≠ .query id := by
    intro v hv id hid
    obtain ⟨hv, hne⟩ := List.mem_filter.mp hv
    rw [hs.queries v hv id hid] at hid
    simp [hid] at hne
  have hanswer : ∀ e (v : EvalValue π), v ∈ s.heap ∧ (v.owner = .cache ∨ v.owner = .answers e) →
      v ∈ (s.endQuery.note (.queryEnded engine value a)).heap ∧
        (v.owner = .cache ∨ v.owner = .answers e) := fun e v hv =>
    ⟨keep v hv.1 fun id hid => by simp [hid] at hv, hv.2⟩
  refine ⟨⟨?_, ?_, ?_, ?_, ?_, ?_, ?_⟩, hdead, ?_, hbindings, hframes, rfl⟩
  · exact hs.nodup.sublist (List.filter_sublist.map _)
  · exact fun v hv id hid => absurd hid (hdead v hv id)
  · intro e entry i b v he hi hv
    obtain ⟨hmem, hown⟩ := hs.slots e entry i b v he hi hv
    exact ⟨keep v hmem (by simp [hown]), hown⟩
  · intro key v hk
    obtain ⟨hmem, hown⟩ := hs.constants key v hk
    exact ⟨keep v hmem (by simp [hown]), hown⟩
  · intro u b v hu _
    simp [State.memo, State.note, State.endQuery] at hu
  · intro key b v hk _
    exact absurd (hk.symm.trans (hbindings key)) (by simp)
  · intro e u b v hmem hv
    rcases List.mem_cons.mp hmem with heq | hmem
    · obtain ⟨rfl, rfl, rfl⟩ := Event.queryEnded.inj heq
      exact hanswer e v (ha v hv)
    · exact hanswer e v (hs.answers e u b v hmem hv)
  · intro u
    simp [State.memo, State.note, State.endQuery]

variable [Fintype Op]

theorem handleTheory_query (hE : E.models.Confined) {s : State Op Blk σ π}
    (hs : HandlesAtRest s) (engine budget : ℕ) (value : Value Op Blk) :
    wp handleTheory.contract (query E engine budget value) s fun _ t => HandlesAtRest t := by
  refine wp_query (fun _ => trivial) fun _ => ?_
  obtain ⟨hg, hi⟩ := hs.beginQuery engine budget value
  refine ⟨hg, ?_⟩
  refine wp_mono (wp_stepsAt Continues.refl (fun _ _ _ => Continues.trans)
    (continuing_compute _ _ _ _) ((handleTheory_sound hE).wp_compute (Nat.lt_succ_self _) hi trivial
    trivial (by omega))) fun r t ht => ?_
  obtain ⟨⟨ht, -, hans⟩, hcont⟩ := ht
  have hempty : t.answerCopies engine = ∅ := by
    rw [hcont.answerCopies]
    simp [State.note, State.beginQuery]
  let C : Contract (State Op Blk σ π) Abort := handleTheory.contract
  -- The end of the query, in the state `u` with the answer `a`.
  have finish : ∀ (u : State Op Blk σ π) (a : Answer π), HandleStore u ∧ CopiesSound u →
      (∀ v, a.value? = some v → v ∈ u.heap ∧ (v.owner = .cache ∨ v.owner = .answers engine)) →
      (u.engine.scopesEnded = false → C.abort .leakedScope) ∧
        (u.engine.scopesEnded = true → C.rely (u.endQuery.note (.queryEnded engine value a)) →
          C.guar (u.endQuery.note (.queryEnded engine value a)) ∧
            HandlesAtRest (u.endQuery.note (.queryEnded engine value a))) := by
    refine fun u a hu ha => ⟨fun _ => trivial, fun hclean _ => ?_⟩
    have hrest := hu.1.endQuery hclean value ha
    exact ⟨hrest.guar (by rintro _ ⟨⟩; exact Or.inl ⟨_, _, _, rfl⟩), hrest⟩
  refine wp_handOut (fun hunknown => finish t r.1 ht fun v hv => ?_) fun v hv _ => ?_
  · rw [Answer.value?_eq_some_iff] at hv
    simp [hv, Answer.isKnown] at hunknown
  · obtain ⟨hg', hi', hmem, hown⟩ := handleTheory_handOut E.mem ht hempty (hans v (by simp [hv]))
    refine ⟨hg', finish _ _ hi' fun w hw => ?_⟩
    obtain rfl := Option.some.inj hw
    exact ⟨hmem, hown⟩

/-- What holds between queries and in all states holds after any history and through one more
query. -/
theorem handleTheory_history (hE : E.models.Confined) {past : List (State Op Blk σ π)}
    {s : State Op Blk σ π} (h : History E past s) (engine budget : ℕ) (value : Value Op Blk) :
    HandlesAtRest s ∧ ∀ t ∈ past ++ (query E engine budget value s).visited, HandleGuar t := by
  have hinit : ∀ w, HandlesAtRest (State.init w : State Op Blk σ π) := by
    intro w
    refine ⟨⟨?_, ?_, ?_, ?_, ?_, ?_, ?_⟩, ?_, ?_, ?_, rfl, rfl⟩ <;>
      simp [State.init, State.memo, Engine.idle, EvalCache.empty, addresses]
  have hclear : ∀ s : State Op Blk σ π, HandlesAtRest s →
      HandlesAtRest (s.clear.note .cleared) := by
    intro s hs
    refine ⟨⟨hs.store.nodup, hs.store.queries, ?_, ?_, hs.store.memo, hs.store.bindings, ?_⟩,
      hs.owners, hs.memo, hs.bindings, hs.frames, hs.queryAllocator⟩
    · simp [State.note, State.clear, EvalCache.empty]
    · simp [State.note, State.clear, EvalCache.empty]
    · intro e u a v hmem hv
      rcases List.mem_cons.mp hmem with heq | hmem
      · cases heq
      · exact hs.store.answers e u a v hmem hv
  have hpast : HandlesAtRest s ∧ ∀ t ∈ past, HandleGuar t := by
    refine h.invariant (fun w => ⟨hinit w, (hinit w).guar (by simp [State.init])⟩)
      (fun s engine budget value _ hs => ?_)
      (fun s hs => ⟨hclear s hs, (hclear s hs).guar (by rintro _ ⟨⟩; exact Or.inr rfl)⟩)
    obtain ⟨hg, hq, -⟩ := handleTheory_query hE hs engine budget value fun _ _ => trivial
    exact ⟨hg, fun r s' hr => hq r s' hr⟩
  obtain ⟨hg, -, -⟩ := handleTheory_query hE hpast.1 engine budget value fun _ _ => trivial
  refine ⟨hpast.1, fun t ht => ?_⟩
  rcases List.mem_append.mp ht with ht | ht
  · exact hpast.2 t ht
  · exact hg t ht

/-- **Handles never outlive their query.**  In every state any sequence of queries goes through,
slots, constants and the answers of earlier queries are live handles that belong to the cache or to
an answer allocator; memo and bindings hold live handles of the cache or the running query; and what
is stored in a slot or handed out has the class and contents of a value of that query.  Nothing of a
query is left when it has ended. -/
theorem handles_never_outlive_query (hE : E.models.Confined) {past : List (State Op Blk σ π)}
    {s : State Op Blk σ π} (h : History E past s) (engine budget : ℕ) (value : Value Op Blk) :
    ∀ t ∈ past ++ (query E engine budget value s).visited, HandleGuar t :=
  (handleTheory_history hE h engine budget value).2

end Histories

end MlirInterpreter
