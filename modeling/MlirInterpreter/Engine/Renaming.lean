import MlirInterpreter.Engine.Compute
import MlirInterpreter.Foundations.Lockstep
import MlirInterpreter.Foundations.Pointwise

/-!
# Where storages live makes no difference

The system's allocator picks addresses, and they are reused.  The engine looks at them when it
retains a value, which finds earlier copies by address, and values that compare by identity are told
apart by them.  Models that never look at an address themselves (`OpModel.Blind`) cannot tell one
allocator from another, nor one engine of the context from another, nor a context whose cache was
cleared from a new one.

A `Renaming` says which values of two contexts correspond: they have equal class and contents, both
are cached or neither is, and their addresses correspond one to one.  `Renaming.Rest` and
`Renaming.Running` relate the states of two contexts, between queries and inside one.  What
corresponds only grows in a query, so a renaming is the world of `Together`.
-/

set_option autoImplicit false

namespace MlirInterpreter

open Recorded

/-- Which values of two contexts correspond. -/
structure Renaming (π : Type) where
  rel : EvalValue π → EvalValue π → Prop
  payload : ∀ {v w}, rel v w → w.payload = v.payload
  cached : ∀ {v w}, rel v w → w.isCached = v.isCached
  addr : ∀ {v w v' w'}, rel v w → rel v' w' → (w.addr = w'.addr ↔ v.addr = v'.addr)

namespace Renaming

variable {π : Type}

/-- More corresponds. -/
instance : Preorder (Renaming π) where
  le L L' := ∀ v w, L.rel v w → L'.rel v w
  le_refl _ _ _ h := h
  le_trans _ _ _ h h' v w hvw := h' v w (h v w hvw)

/-- Nothing corresponds. -/
def empty : Renaming π where
  rel _ _ := False
  payload h := h.elim
  cached h := h.elim
  addr h := h.elim

/-- Only cached values correspond. -/
def cachedOnly (L : Renaming π) : Renaming π where
  rel v w := L.rel v w ∧ v.isCached = true
  payload h := L.payload h.1
  cached h := L.cached h.1
  addr h h' := L.addr h.1 h'.1

/-- Two new values correspond as well. -/
def extend (L : Renaming π) (v w : EvalValue π) (hp : w.payload = v.payload)
    (hc : w.isCached = v.isCached)
    (hnew : ∀ v' w', L.rel v' w' → v'.addr ≠ v.addr ∧ w'.addr ≠ w.addr) : Renaming π where
  rel v' w' := L.rel v' w' ∨ v' = v ∧ w' = w
  payload := by
    rintro _ _ (h | ⟨rfl, rfl⟩)
    · exact L.payload h
    · exact hp
  cached := by
    rintro _ _ (h | ⟨rfl, rfl⟩)
    · exact L.cached h
    · exact hc
  addr := by
    rintro v₁ w₁ v₂ w₂ (h | ⟨rfl, rfl⟩) (h' | ⟨rfl, rfl⟩)
    · exact L.addr h h'
    · exact iff_of_false (hnew _ _ h).2 (hnew _ _ h).1
    · exact iff_of_false (hnew _ _ h').2.symm (hnew _ _ h').1.symm
    · exact iff_of_true rfl rfl

variable {L L' : Renaming π}

theorem cachedOnly_mono (h : L ≤ L') : L.cachedOnly ≤ L'.cachedOnly := fun v w hvw =>
  ⟨h v w hvw.1, hvw.2⟩

theorem cachedOnly_le (L : Renaming π) : L.cachedOnly ≤ L := fun _ _ h => h.1

theorem le_extend {v w : EvalValue π} {hp : w.payload = v.payload}
    {hc : w.isCached = v.isCached}
    {hnew : ∀ v' w', L.rel v' w' → v'.addr ≠ v.addr ∧ w'.addr ≠ w.addr} :
    L ≤ L.extend v w hp hc hnew := fun _ _ h => Or.inl h

/-- Corresponding answers. -/
inductive Answers (L : Renaming π) : Answer π → Answer π → Prop
  | signal (status : Signal) : Answers L (.signal status) (.signal status)
  | unknown : Answers L .unknown .unknown
  | known {v w : EvalValue π} (h : L.rel v w) : Answers L (.known v) (.known w)

theorem Answers.mono {a b : Answer π} (h : L.Answers a b) (hL : L ≤ L') : L'.Answers a b := by
  cases h with
  | signal status => exact .signal status
  | unknown => exact .unknown
  | known h => exact .known (hL _ _ h)

theorem Answers.isCompleted {a b : Answer π} (h : L.Answers a b) :
    b.isCompleted = a.isCompleted := by
  cases h <;> rfl

theorem Answers.isKnown {a b : Answer π} (h : L.Answers a b) : b.isKnown = a.isKnown := by
  cases h <;> rfl

/-- What an optional value is answered as. -/
theorem Answers.of_value {a b : Option (EvalValue π)} (h : Option.Rel L.rel a b) :
    L.Answers (.completed a) (.completed b) := by
  cases h with
  | none => exact .unknown
  | some h => exact .known h

/-- Corresponding lists of answers. -/
abbrev Results (L : Renaming π) : List (Answer π) → List (Answer π) → Prop :=
  List.Forall₂ L.Answers

theorem Results.mono {l l' : List (Answer π)} (h : L.Results l l') (hL : L ≤ L') :
    L'.Results l l' := h.imp fun _ _ h => h.mono hL

/-- Corresponding slots hold cached values. -/
abbrev Slots (L : Renaming π) : Option (Answer π) → Option (Answer π) → Prop :=
  Option.Rel L.cachedOnly.Answers

theorem Slots.mono {a b : Option (Answer π)} (h : L.Slots a b) (hL : L ≤ L') : L'.Slots a b :=
  Option.Rel.mono (fun _ _ h => h.mono (cachedOnly_mono hL)) h

/-! ## States -/

variable {Op Blk σ : Type} [DecidableEq Op] [DecidableEq Blk]

/-- Corresponding entries. -/
structure Entry (L : Renaming π) (e e' : CacheEntry Op π) : Prop where
  op : e'.op = e.op
  results : List.Forall₂ L.Slots e.results e'.results

/-- Corresponding caches. -/
structure Cache (L : Renaming π) (c d : EvalCache Op π) : Prop where
  entries : d.entries = c.entries
  arena : List.Forall₂ L.Entry c.arena d.arena
  constants : DenseMap.Pointwise (Option.Rel L.cachedOnly.rel) c.constants d.constants

/-- Engines that are doing the same. -/
structure Engines (L : Renaming π) (g h : Engine Op Blk π) : Prop where
  queryAllocator : h.queryAllocator.isNone = g.queryAllocator.isNone
  active : h.active = g.active
  queryAnswers : DenseMap.Pointwise L.Answers g.queryAnswers h.queryAnswers
  frames : h.frames = g.frames
  bindings : DenseMap.Pointwise L.Answers g.bindings h.bindings
  freezes : h.freezes = g.freezes

/-- What corresponds is alive. -/
def Live (L : Renaming π) (heap heap' : List (EvalValue π)) : Prop :=
  ∀ v w, L.rel v w → v ∈ heap ∧ w ∈ heap'

/-- The copies that the caches remember correspond, and are remembered for live storages only. -/
structure Copies (L : Renaming π) (heap heap' : List (EvalValue π))
    (c d : DenseMap ℕ (EvalValue π)) : Prop where
  left : ∀ a, a ∉ addresses heap → c.lookup a = none
  right : ∀ a, a ∉ addresses heap' → d.lookup a = none
  lookup : ∀ v w, L.rel v w → Option.Rel L.cachedOnly.rel (c.lookup v.addr) (d.lookup w.addr)

/-- Two contexts that correspond between queries. -/
structure Rest (L : Renaming π) (s t : State Op Blk σ π) : Prop where
  live : L.Live s.heap t.heap
  cache : L.Cache s.cache t.cache
  engine : L.Engines s.engine t.engine
  world : t.world = s.world

/-- Two contexts that correspond inside of a query, which runs in the engine `e` in the one and in
`e'` in the other. -/
structure Running (e e' : ℕ) (L : Renaming π) (s t : State Op Blk σ π) : Prop where
  rest : L.Rest s t
  copies : L.Copies s.heap t.heap s.cache.copies t.cache.copies
  left : s.answerCopies e = ∅
  right : t.answerCopies e' = ∅
  remaining : t.engine.remaining = s.engine.remaining

variable {e e' : ℕ} {s t : State Op Blk σ π}

omit [DecidableEq Op] in
theorem Entry.mono {x y : CacheEntry Op π} (h : L.Entry x y) (hL : L ≤ L') : L'.Entry x y :=
  ⟨h.op, h.results.imp fun _ _ h => h.mono hL⟩

omit [DecidableEq Op] in
theorem Cache.mono {c d : EvalCache Op π} (h : L.Cache c d) (hL : L ≤ L') : L'.Cache c d where
  entries := h.entries
  arena := h.arena.imp fun _ _ h => h.mono hL
  constants := h.constants.mono fun _ _ h => h.mono (cachedOnly_mono hL)

theorem Engines.mono {g h : Engine Op Blk π} (hgh : L.Engines g h) (hL : L ≤ L') :
    L'.Engines g h :=
  { hgh with
    queryAnswers := hgh.queryAnswers.mono fun _ _ h => h.mono hL
    bindings := hgh.bindings.mono fun _ _ h => h.mono hL }

/-- An event changes nothing. -/
theorem Running.note (h : L.Running e e' s t) (ev ev' : Event Op Blk π) :
    L.Running e e' (s.note ev) (t.note ev') :=
  ⟨⟨h.rest.live, h.rest.cache, h.rest.engine, h.rest.world⟩, h.copies, h.left, h.right, h.remaining⟩

/-- Engines alone change, and not their budgets. -/
theorem Running.of_engines (h : L.Running e e' s t) {g g' : Engine Op Blk π}
    (hg : L.Engines g g') (hrem : g'.remaining = g.remaining) :
    L.Running e e' { s with engine := g } { t with engine := g' } :=
  ⟨⟨h.rest.live, h.rest.cache, hg, h.rest.world⟩, h.copies, h.left, h.right, hrem⟩

/-! ## Storages -/

section Storages

variable {mem mem' : Malloc} {heap heap' : List (EvalValue π)} {c d : DenseMap ℕ (EvalValue π)}
  {v w r r' : EvalValue π}

/-- A new storage has another address than those that are alive. -/
theorem newStorage_addr_notMem (mem : Malloc) (heap : List (EvalValue π)) (o : Owner) (p : π) :
    (newStorage mem heap o p).addr ∉ addresses heap := mem.pick_fresh _

theorem newStorage_addr_ne {o : Owner} {p : π} (h : v ∈ heap) :
    v.addr ≠ (newStorage mem heap o p).addr := fun heq =>
  newStorage_addr_notMem mem heap o p (heq ▸ List.mem_map_of_mem h)

/-- Both contexts get a new storage, with equal class and contents. -/
def alloc (L : Renaming π) (mem mem' : Malloc) (h : L.Live heap heap') {o o' : Owner}
    (ho : o' = .cache ↔ o = .cache) (p : π) : Renaming π :=
  L.extend (newStorage mem heap o p) (newStorage mem' heap' o' p) rfl (decide_eq_decide.mpr ho)
    fun v w hvw => ⟨newStorage_addr_ne (h v w hvw).1, newStorage_addr_ne (h v w hvw).2⟩

variable {o o' : Owner} {ho : o' = .cache ↔ o = .cache} {p : π}

theorem alloc_rel (h : L.Live heap heap') (ho : o' = .cache ↔ o = .cache) :
    (L.alloc mem mem' h ho p).rel (newStorage mem heap o p) (newStorage mem' heap' o' p) :=
  Or.inr ⟨rfl, rfl⟩

theorem Live.alloc (h : L.Live heap heap') : (L.alloc mem mem' h ho p).Live
    (newStorage mem heap o p :: heap) (newStorage mem' heap' o' p :: heap') := by
  rintro v w (hvw | ⟨rfl, rfl⟩)
  · exact ⟨List.mem_cons_of_mem _ (h v w hvw).1, List.mem_cons_of_mem _ (h v w hvw).2⟩
  · exact ⟨List.mem_cons_self, List.mem_cons_self⟩

/-- A new storage is not remembered yet. -/
theorem Copies.alloc (h : L.Live heap heap') (hc : L.Copies heap heap' c d) :
    (L.alloc mem mem' h ho p).Copies (newStorage mem heap o p :: heap)
      (newStorage mem' heap' o' p :: heap') c d where
  left a ha := hc.left a fun hmem => ha (List.mem_cons_of_mem _ hmem)
  right a ha := hc.right a fun hmem => ha (List.mem_cons_of_mem _ hmem)
  lookup := by
    rintro v w (hvw | ⟨rfl, rfl⟩)
    · exact (hc.lookup v w hvw).mono (cachedOnly_mono le_extend)
    · rw [hc.left _ (newStorage_addr_notMem mem heap o p),
        hc.right _ (newStorage_addr_notMem mem' heap' o' p)]
      exact .none

theorem Copies.insert (h : L.Live heap heap') (hc : L.Copies heap heap' c d) (hv : L.rel v w)
    (hr : L.cachedOnly.rel r r') :
    L.Copies heap heap' (AList.insert v.addr r c) (AList.insert w.addr r' d) where
  left a ha := by
    have hne : a ≠ v.addr := fun heq => ha (heq ▸ List.mem_map_of_mem (h v w hv).1)
    rw [AList.lookup_insert_ne hne]
    exact hc.left a ha
  right a ha := by
    have hne : a ≠ w.addr := fun heq => ha (heq ▸ List.mem_map_of_mem (h v w hv).2)
    rw [AList.lookup_insert_ne hne]
    exact hc.right a ha
  lookup x y hxy := by
    by_cases hx : x.addr = v.addr
    · rw [hx, (L.addr hxy hv).mpr hx, AList.lookup_insert, AList.lookup_insert]
      exact .some hr
    · have hy : y.addr ≠ w.addr := fun hy => hx ((L.addr hxy hv).mp hy)
      rw [AList.lookup_insert_ne hx, AList.lookup_insert_ne hy]
      exact hc.lookup x y hxy

theorem Copies.tryEmplace (h : L.Live heap heap') (hc : L.Copies heap heap' c d) (hv : L.rel v w)
    (hr : L.cachedOnly.rel r r') :
    L.Copies heap heap' (DenseMap.tryEmplace c v.addr r) (DenseMap.tryEmplace d w.addr r') := by
  have hnone := (hc.lookup v w hv).eq_none_iff
  rw [DenseMap.tryEmplace, DenseMap.tryEmplace]
  cases hd : d.lookup w.addr with
  | none =>
    rw [hnone.mp hd]
    exact hc.insert h hv hr
  | some _ =>
    cases hv' : c.lookup v.addr with
    | none => cases hd.symm.trans (hnone.mpr hv')
    | some _ => exact hc

/-- **The cache retains corresponding values alike.** -/
theorem Copies.retain (mem mem' : Malloc) (h : L.Live heap heap')
    (hc : L.Copies heap heap' c d) (hv : L.rel v w) :
    ∃ L', L ≤ L' ∧
      L'.Live (retain mem .cache heap c v).heap (retain mem' .cache heap' d w).heap ∧
      L'.Copies (retain mem .cache heap c v).heap (retain mem' .cache heap' d w).heap
        (retain mem .cache heap c v).copies (retain mem' .cache heap' d w).copies ∧
      L'.cachedOnly.rel (retain mem .cache heap c v).value
        (retain mem' .cache heap' d w).value := by
  rw [MlirInterpreter.retain, MlirInterpreter.retain, L.cached hv]
  by_cases hcached : v.isCached = true
  · rw [if_pos hcached, if_pos hcached]
    exact ⟨L, le_rfl, h, hc, hv, hcached⟩
  · rw [if_neg hcached, if_neg hcached]
    have hfound := hc.lookup v w hv
    cases hv' : c.lookup v.addr with
    | some copy =>
      cases hw' : d.lookup w.addr with
      | none => cases hv'.symm.trans (hfound.eq_none_iff.mp hw')
      | some copy' =>
        rw [hv', hw', Option.rel_some_some] at hfound
        exact ⟨L, le_rfl, h, hc, hfound⟩
    | none =>
      rw [hfound.eq_none_iff.mpr hv', L.payload hv]
      -- The new copy is remembered under the address of the original, and under its own.
      have ho : Owner.cache = Owner.cache ↔ Owner.cache = Owner.cache := Iff.rfl
      have hnew : (L.alloc mem mem' h ho v.payload).cachedOnly.rel
          (newStorage mem heap .cache v.payload) (newStorage mem' heap' .cache v.payload) :=
        ⟨alloc_rel h ho, rfl⟩
      exact ⟨L.alloc mem mem' h ho v.payload, le_extend, h.alloc,
        ((hc.alloc h).insert h.alloc (le_extend _ _ hv) hnew).tryEmplace h.alloc hnew.1 hnew, hnew⟩

end Storages

/-! ## Models that do not look at addresses -/

/-- What a scope is asked for in the two contexts. -/
inductive ScopeCall (L : Renaming π) : ScopeOp Op Blk σ π → ScopeOp Op Blk σ π → Prop
  | query (value : Value Op Blk) : ScopeCall L (.query value) (.query value)
  | declareCost : ScopeCall L .declareCost .declareCost
  | freezeCache : ScopeCall L .freezeCache .freezeCache
  | thawCache : ScopeCall L .thawCache .thawCache
  | bind (block : Blk) {args args' : List (Answer π)} (h : L.Results args args') :
    ScopeCall L (.bind block args) (.bind block args')
  | unbind (block : Blk) : ScopeCall L (.unbind block) (.unbind block)
  | allocate (payload : π) : ScopeCall L (.allocate payload) (.allocate payload)
  | getWorld : ScopeCall L .getWorld .getWorld
  | setWorld (w : σ) : ScopeCall L (.setWorld w) (.setWorld w)

/-- What a scope answers in the two contexts. -/
def ScopeResponse (L : Renaming π) :
    (i j : ScopeOp Op Blk σ π) → i.Response → j.Response → Prop
  | .query _, .query _, a, b => L.Answers a b
  | .declareCost, .declareCost, a, b => b = a
  | .allocate _, .allocate _, v, w => L.rel v w
  | .getWorld, .getWorld, a, b => b = a
  | _, _, _, _ => True

def scopeCoupling : Coupling (Renaming π) (ScopeOp Op Blk σ π) ScopeOp.Response :=
  ⟨ScopeCall, ScopeResponse⟩

end Renaming

section Blind

variable {Op Blk σ π α : Type}

/-- A method that does the same wherever the values it sees live. -/
def BlindMethod (Q : Renaming π → α → α → Prop) (p : ScopeM Op Blk σ π α) : Prop :=
  ∀ L, Prog.Related Renaming.scopeCoupling Q L p p

/-- A method that answers the same wherever the values it sees live. -/
abbrev Steady (p : ScopeM Op Blk σ π α) : Prop := BlindMethod (fun _ a b => b = a) p

/-- A model that never looks at an address. -/
structure OpModel.Blind (model : OpModel Op Blk σ π) : Prop where
  isCacheable : Steady model.isCacheable
  getHash : Steady model.getHash
  isEquivalentTo : ∀ other, Steady (model.isEquivalentTo other)
  evaluate : BlindMethod Renaming.Results model.evaluate

/-- No model looks at an address. -/
def Setup.Blind (E : Setup Op Blk σ π) : Prop :=
  ∀ op model, E.models.op op = some model → model.Blind

/-- The same engine over another system's allocator. -/
abbrev Setup.withMalloc (E : Setup Op Blk σ π) (mem : Malloc) : Setup Op Blk σ π :=
  { E with mem := mem }

section Rules

variable {β γ : Type} {Q : Renaming π → α → β → Prop} {L : Renaming π}

/-- Programs over a scope that do alike. -/
abbrev RelatedScopes (Q : Renaming π → α → β → Prop) (L : Renaming π) :
    ScopeM Op Blk σ π α → ScopeM Op Blk σ π β → Prop :=
  Prog.Related Renaming.scopeCoupling Q L

theorem related_query {v : Value Op Blk} {f : Answer π → ScopeM Op Blk σ π α}
    {g : Answer π → ScopeM Op Blk σ π β}
    (h : ∀ L' a b, L ≤ L' → L'.Answers a b → RelatedScopes Q L' (f a) (g b)) :
    RelatedScopes Q L (EvalScope.query v >>= f) (EvalScope.query v >>= g) :=
  .lift_bind (.query v) h

/-- What is done for a signal, and what for a completed value. -/
theorem related_query_cases {v : Value Op Blk} {f : Answer π → ScopeM Op Blk σ π α}
    {g : Answer π → ScopeM Op Blk σ π β}
    (hs : ∀ L' status, RelatedScopes Q L' (f (.signal status)) (g (.signal status)))
    (hc : ∀ L' x y, L ≤ L' → Option.Rel L'.rel x y →
      RelatedScopes Q L' (f (.completed x)) (g (.completed y))) :
    RelatedScopes Q L (EvalScope.query v >>= f) (EvalScope.query v >>= g) := by
  refine related_query fun L' a b hL hab => ?_
  cases hab with
  | signal status => exact hs L' status
  | unknown => exact hc L' _ _ hL .none
  | known h => exact hc L' _ _ hL (.some h)

theorem related_allocate {payload : π} {f : EvalValue π → ScopeM Op Blk σ π α}
    {g : EvalValue π → ScopeM Op Blk σ π β}
    (h : ∀ L' v w, L ≤ L' → L'.rel v w → RelatedScopes Q L' (f v) (g w)) :
    RelatedScopes Q L (EvalScope.allocate payload >>= f) (EvalScope.allocate payload >>= g) :=
  .lift_bind (.allocate payload) h

theorem related_declareCost {f : Bool → ScopeM Op Blk σ π α} {g : Bool → ScopeM Op Blk σ π β}
    (h : ∀ L' charged, L ≤ L' → RelatedScopes Q L' (f charged) (g charged)) :
    RelatedScopes Q L (EvalScope.declareCost >>= f) (EvalScope.declareCost >>= g) := by
  refine .lift_bind .declareCost fun L' a b hL hab => ?_
  have hab : b = a := hab
  exact hab ▸ h L' b hL

theorem related_withFreeze {p : ScopeM Op Blk σ π α} {p' : ScopeM Op Blk σ π β}
    (hQ : ∀ L L' a b, L ≤ L' → Q L a b → Q L' a b)
    (h : ∀ L', L ≤ L' → RelatedScopes Q L' p p') :
    RelatedScopes Q L (EvalScope.withFreeze p) (EvalScope.withFreeze p') := by
  refine .lift_bind .freezeCache fun L₁ _ _ hL _ => (h L₁ hL).bind fun L₂ a b _ hab => ?_
  exact .lift_bind .thawCache fun L₃ _ _ hL _ => .pure (hQ L₂ L₃ a b hL hab)

theorem related_withBinding {block : Blk} {args args' : List (Answer π)}
    (hargs : L.Results args args') {p : ScopeM Op Blk σ π α} {p' : ScopeM Op Blk σ π β}
    (hQ : ∀ L L' a b, L ≤ L' → Q L a b → Q L' a b)
    (h : ∀ L', L ≤ L' → RelatedScopes Q L' p p') :
    RelatedScopes Q L (EvalScope.withBinding block args p)
      (EvalScope.withBinding block args' p') := by
  refine .lift_bind (.bind block hargs) fun L₁ _ _ hL _ =>
    (h L₁ hL).bind fun L₂ a b _ hab => ?_
  exact .lift_bind (.unbind block) fun L₃ _ _ hL _ => .pure (hQ L₂ L₃ a b hL hab)

theorem related_queryAll {f : ScopeM Op Blk σ π α} {g : ScopeM Op Blk σ π β}
    (h : ∀ L', L ≤ L' → RelatedScopes Q L' f g) (l : List (Value Op Blk)) :
    RelatedScopes Q L (queryAll l >>= fun _ => f) (queryAll l >>= fun _ => g) := by
  induction l generalizing L with
  | nil => exact h L le_rfl
  | cons v l ih => exact related_query fun L' _ _ hL _ => ih fun L'' hL' => h L'' (hL.trans hL')

theorem Steady.pure (a : α) : Steady (Pure.pure a : ScopeM Op Blk σ π α) := fun _ => .ret rfl

/-- After a steady program the rest goes on from the same answer. -/
theorem Steady.then {p : ScopeM Op Blk σ π γ} (hp : Steady p) {f : γ → ScopeM Op Blk σ π α}
    {g : γ → ScopeM Op Blk σ π β} (hf : ∀ L' a, L ≤ L' → RelatedScopes Q L' (f a) (g a)) :
    RelatedScopes Q L (p >>= f) (p >>= g) := by
  refine (hp L).bind fun L' a b hL hab => ?_
  rw [hab]
  exact hf L' a hL

theorem Steady.bind {p : ScopeM Op Blk σ π γ} {f : γ → ScopeM Op Blk σ π α} (hp : Steady p)
    (hf : ∀ a, Steady (f a)) : Steady (p >>= f) := fun _ => hp.then fun L' a _ => hf a L'

end Rules

/-- Models that query operands only are blind. -/
theorem reentrantModels_blind (P : Program Op Blk) (payload : π) (mem : Malloc) :
    (⟨P, reentrantModels P payload, mem⟩ : Setup Op Blk σ π).Blind := by
  have constant : ∀ {α : Type} (a : α) (l : List (Value Op Blk)),
      Steady (queryAll l >>= fun _ => Pure.pure a : ScopeM Op Blk σ π α) :=
    fun a l _ => related_queryAll (fun L' _ => Steady.pure a L') l
  rintro op model ⟨⟩
  refine ⟨constant _ _, constant _ _, fun _ => constant _ _, fun L => ?_⟩
  refine related_queryAll (fun L' _ => related_allocate fun L'' v w _ hvw => ?_) _
  exact .pure (.replicate (.known hvw) _)

end Blind

end MlirInterpreter
