import MlirInterpreter.Engine.Handles
import MlirInterpreter.Engine.Moments
import MlirInterpreter.Foundations.Dialogue

/-!
# An engine is as good as its models

The engine caches, memoizes, binds and forgets; what an operation computes only its model knows.
This module is about what a model has to make sure of for the engine to answer right, whatever the
other models are and whatever the program means.  `EvaluableOpInterface` and `EvalScope` say it in
words:

* `evaluate` returns one answer for every result, and those that are known are right;
* `isEquivalentTo` finds only operations that compute the same results;
* a method binds blocks of its own operation only, and only while it keeps the cache frozen, because
  what is computed under a binding may depend on it.

In return a method may trust the answers it is given: they are right for what is bound.
`scopeDialogue` is this exchange, and `Setup.Faithful` says that all models keep their side.
`faithful_query` concludes that then every known answer is right, of every query after any history.
-/

set_option autoImplicit false

namespace MlirInterpreter

open Recorded

variable {Op Blk σ π : Type} [DecidableEq Op] [DecidableEq Blk]

/-! ## Faithful models -/

/-- Where a method is: what it has open, what is known of the arguments of blocks, and the handles
it was given. -/
structure Talk (Blk π : Type) where
  scopes : OpenScopes Blk
  known : Bindings Blk π
  held : List (EvalValue π)

section Models

variable (P : Program Op Blk) (M : Set (Moment Op Blk π)) (op : Op)

/-- A handle that is new or was given before: two storages do not share an address. -/
def Distinct (held : List (EvalValue π)) (v : EvalValue π) : Prop :=
  ∀ w ∈ held, w.addr = v.addr → w = v

/-- What a method of `op` may ask for, and how it is answered. -/
def scopeDialogue : Dialogue (ScopeOp Op Blk σ π) ScopeOp.Response (Talk Blk π) where
  allowed t i := (scopeProtocol P op).allowed t.scopes i ∧ match i with
    | .bind block args => 0 < t.scopes.freezes ∧ HeldBy t.held args ∧
        Possible M (t.known.bind block (args.map Answer.content))
    | .thawCache => t.scopes.blocks = [] ∨ 1 < t.scopes.freezes
    | _ => True
  promised t
    | .query value, (a : Answer π) => a.Right P M t.known value ∧
        ∀ v, a.value? = some v → Distinct t.held v
    | .allocate payload, (v : EvalValue π) => v.payload = payload ∧ Distinct t.held v
    | _, _ => True
  next t
    | .query _, (a : Answer π) => { t with held := a.value?.toList ++ t.held }
    | .allocate _, (v : EvalValue π) => { t with held := v :: t.held }
    | .bind block args, _ =>
      ⟨(scopeProtocol (π := π) (σ := σ) P op).next t.scopes (.bind block args),
        t.known.bind block (args.map Answer.content), t.held⟩
    | .unbind block, _ => ⟨(scopeProtocol (π := π) (σ := σ) P op).next t.scopes (.unbind block),
        t.known.unbind block, t.held⟩
    | i, _ => { t with scopes := (scopeProtocol P op).next t.scopes i }

/-- Nothing is known of the arguments of the operation's own blocks. -/
def OwnUnbound (ρ : Bindings Blk π) : Prop := ∀ b, (P.parentRegion b).op = op → ∀ i, ρ b i = none

/-- Started under any bindings of other blocks, the method keeps its side of the dialogue, has
everything closed when it returns, and returns what `ok` accepts. -/
def FaithfulMethod {α : Type} (ok : Bindings Blk π → List (EvalValue π) → α → Prop)
    (p : ScopeM Op Blk σ π α) : Prop :=
  ∀ ρ, Possible M ρ → OwnUnbound P op ρ →
    p.Follows (scopeDialogue P M op) (fun a t => t.scopes = .none ∧ ok ρ t.held a) ⟨.none, ρ, []⟩

/-- The results of two operations are the same. -/
def Interchangeable (ρ : Bindings Blk π) (other : Op) : Prop :=
  ∀ i p, Holds P M ρ (.result op i) p ↔ Holds P M ρ (.result other i) p

/-- A model that keeps the contract of its interface. -/
structure OpModel.Faithful (model : OpModel Op Blk σ π) : Prop where
  isCacheable : FaithfulMethod P M op (fun _ _ _ => True) model.isCacheable
  getHash : FaithfulMethod P M op (fun _ _ _ => True) model.getHash
  isEquivalentTo : ∀ other, FaithfulMethod P M op
    (fun ρ _ r => r = .completed true → Interchangeable P M op ρ other) (model.isEquivalentTo other)
  evaluate : FaithfulMethod P M op (fun ρ held l => l.length = P.numResults op ∧ HeldBy held l ∧
    ∀ (i : ℕ) a, l[i]? = some a → a.Right P M ρ (.result op i)) model.evaluate

end Models

/-- All registered models keep their contracts, and constants fold to what they are. -/
structure Setup.Faithful (E : Setup Op Blk σ π) (M : Set (Moment Op Blk π)) : Prop where
  op : ∀ op model, E.models.op op = some model → model.Faithful E.program M op
  constant : ∀ op attr model payload, E.models.op op = none →
    E.program.constantAttr op = some attr → E.models.attr attr = some model →
    model.toEvalValue = some payload → ∀ i < E.program.numResults op, ∀ m ∈ M,
    m (.result op i) = some payload

/-! ## The invariant -/

/-- What the engine has bound, memoized and cached is in order and right. -/
structure Truthful (E : Setup Op Blk σ π) (M : Set (Moment Op Blk π)) (s : State Op Blk σ π) :
    Prop where
  scopes : ScopesInv E.program s.engine
  /-- What is bound is possible. -/
  possible : Possible M s.engine.known
  /-- Nothing is cached while a block is bound. -/
  frozen : s.engine.boundBlocks ≠ [] → 0 < s.engine.freezes
  memo : Remembers E.program M s.engine
  /-- A cached answer is right without any binding. -/
  slots : ∀ (e : ℕ) (entry : CacheEntry Op π) (i : ℕ) (a : Answer π),
    s.cache.arena[e]? = some entry → entry.results[i]? = some (some a) →
    a.Right E.program M .empty (.result entry.op i)
  /-- A stored constant is what its attribute denotes. -/
  constants : ∀ attr type v, s.cache.constants.lookup (attr, type) = some (some v) →
    ∃ model, E.models.attr attr = some model ∧ model.toEvalValue = some v.payload

/-- What has to be shown of every state. -/
structure TruthGuar (E : Setup Op Blk σ π) (M : Set (Moment Op Blk π)) (s : State Op Blk σ π) :
    Prop where
  truthful : Truthful E M s
  /-- A nested query was answered right for the current bindings. -/
  answered : ∀ v a, s.log.head? = some (.answered v a) → a.Right E.program M s.engine.known v

/-- An answer that is right for what is bound, with a handle the query may use. -/
structure Granted (P : Program Op Blk) (M : Set (Moment Op Blk π)) (s : State Op Blk σ π)
    (v : Value Op Blk) (a : Answer π) : Prop where
  usable : ∀ w, a.value? = some w → Usable s w
  right : a.Right P M s.engine.known v

/-- An entry for an operation with the same results as `op`. -/
def EntryOf (P : Program Op Blk) (M : Set (Moment Op Blk π)) (s : State Op Blk σ π) (op : Op)
    (e : ℕ) : Prop :=
  ∃ entry, s.cache.arena[e]? = some entry ∧ Interchangeable P M op s.engine.known entry.op

/-- The theory of faithful models. -/
def truthTheory (E : Setup Op Blk σ π) (M : Set (Moment Op Blk π)) : Theory Op Blk σ π where
  contract := ⟨HandleGuar, TruthGuar E M, fun x => x = .outOfFuel ∨ x = .outOfRange⟩
  Inv s := HandleStore s ∧ Truthful E M s
  Rel s s' := SameScopes s.engine s'.engine
  Own _ s s' := SameScopes s.engine s'.engine
  Pre _ v := E.program.Valid v
  Ans := Granted E.program M
  Within s op := Evaluating E.program op s.engine
  Uncached _ _ := True
  Key _ _ _ := True
  Missed _ _ _ _ := True
  Compared s op other r :=
    r = .completed true → Interchangeable E.program M op s.engine.known other
  Found s op _ _ e := EntryOf E.program M s op e
  Kept := EntryOf E.program M
  Ready s op
    | some ⟨_, some e, _⟩ => EntryOf E.program M s op e
    | _ => True
  Results s op l := l.length = E.program.numResults op ∧
    ∀ (i : ℕ) a, l[i]? = some a → Granted E.program M s (.result op i) a
  Out s op i := Granted E.program M s (.result op i)

/-! ## Writes -/

section Writes

variable {E : Setup Op Blk σ π} {M : Set (Moment Op Blk π)} {s t : State Op Blk σ π} {op : Op}

/-- A write that leaves the cached answers and the scopes alone. -/
theorem Truthful.same (h : Truthful E M s) (ha : t.cache.arena = s.cache.arena)
    (hc : t.cache.constants = s.cache.constants) (hsame : SameScopes s.engine t.engine)
    (hm : Remembers E.program M t.engine) : Truthful E M t where
  scopes := hsame.inv h.scopes
  possible := hsame.known ▸ h.possible
  frozen := by
    rw [hsame.blocks, hsame.freezes]
    exact h.frozen
  memo := hm
  slots := ha ▸ h.slots
  constants := hc ▸ h.constants

omit [DecidableEq Op] in
theorem Granted.stable {v : Value Op Blk} {a : Answer π} (h : Granted E.program M s v a)
    (hsame : SameScopes s.engine t.engine) (hcont : Continues s t) :
    Granted E.program M t v a where
  usable w hw := (h.usable w hw).mono hcont.heap.subset hcont.queries
  right := hsame.known ▸ h.right

omit [DecidableEq Op] in
theorem EntryOf.stable {e : ℕ} (h : EntryOf E.program M s op e)
    (hsame : SameScopes s.engine t.engine) (hcont : Continues s t) :
    EntryOf E.program M t op e := by
  obtain ⟨entry, he, hx⟩ := h
  obtain ⟨entry', he', hext⟩ := hcont.cache.arena e entry he
  refine ⟨entry', he', ?_⟩
  rw [hext.op, hsame.known]
  exact hx

theorem truthTheory_allows {e : Event Op Blk π} (hs : (truthTheory E M).Inv s)
    (ha : t.cache.arena = s.cache.arena) (hc : t.cache.constants = s.cache.constants)
    (hsame : SameScopes s.engine t.engine) (hm : Remembers E.program M t.engine)
    (hl : t.log = e :: s.log)
    (he : ∀ v a, e = .answered v a → a.Right E.program M s.engine.known v) :
    (truthTheory E M).Allows s t := by
  intro hr
  have ht : Truthful E M t := hs.2.same ha hc hsame hm
  refine ⟨⟨ht, fun v a hva => ?_⟩, ⟨hr.store, ht⟩, hsame⟩
  rw [hl, List.head?_cons, Option.some.injEq] at hva
  rw [hsame.known]
  exact he v a hva

/-- An event alone. -/
theorem truthTheory_note {e : Event Op Blk π} (hs : (truthTheory E M).Inv s)
    (he : ∀ v a, e = .answered v a → a.Right E.program M s.engine.known v) :
    (truthTheory E M).Allows s (s.note e) :=
  truthTheory_allows hs rfl rfl (.refl _) hs.2.memo rfl he

/-- An event of the code for `op`. -/
theorem truthTheory_noteOwn {e : Event Op Blk π} {Q : Prop} (hs : (truthTheory E M).Inv s)
    (hw : Evaluating E.program op s.engine) (he : ∀ v a, e ≠ .answered v a) (hQ : Q) :
    (truthTheory E M).AllowsOwn op s (s.note e) Q :=
  .of_allows (truthTheory_note hs fun v a hva => absurd hva (he v a)) id hw hQ

/-- An answer that is right now may be memoized. -/
theorem truthTheory_memoize {v : Value Op Blk} {a : Answer π} (hs : (truthTheory E M).Inv s)
    (ha : a.Right E.program M s.engine.known v) :
    (truthTheory E M).Allows s ((s.memoize E.program v a).note (.memoized v a)) :=
  truthTheory_allows (e := .memoized v a) hs rfl rfl (.memoize v a)
    (hs.2.memo.memoize hs.2.scopes ha) rfl (by simp)

/-- A new storage does not change what is right. -/
theorem truthTheory_addStorage (v : EvalValue π) (hs : (truthTheory E M).Inv s) :
    (truthTheory E M).Allows s ((s.addStorage v).note (.allocated v)) :=
  truthTheory_allows (e := .allocated v) hs rfl rfl ⟨rfl, rfl, rfl, fun _ => rfl⟩
    (hs.2.memo.of_eq rfl rfl rfl) rfl (by simp)

/-- **What a slot holds is right for every operation the entry is for**, under any bindings. -/
theorem Truthful.slot_right (h : Truthful E M s) {e i : ℕ} (he : EntryOf E.program M s op e)
    {entry : CacheEntry Op π} {a : Answer π} (hentry : s.cache.arena[e]? = some entry)
    (hi : entry.results[i]? = some (some a)) :
    a.Right E.program M s.engine.known (.result op i) := by
  obtain ⟨entry', he', hx⟩ := he
  obtain rfl := Option.some.inj (he'.symm.trans hentry)
  exact fun p hp => (hx i p).mpr (h.slots e entry' i a hentry hi p hp).of_empty

theorem Truthful.slot_granted (hs : (truthTheory E M).Inv s) {e i : ℕ}
    (he : EntryOf E.program M s op e) {entry : CacheEntry Op π} {a : Answer π}
    (hentry : s.cache.arena[e]? = some entry) (hi : entry.results[i]? = some (some a)) :
    Granted E.program M s (.result op i) a where
  usable w hw := (hs.1.slots e entry i a w hentry hi hw).usable
  right := hs.2.slot_right he hentry hi

/-- **A slot is filled with what is right without any binding**, since nothing is bound. -/
theorem truthTheory_fillSlot {e i : ℕ} {v : EvalValue π} (hs : (truthTheory E M).Inv s)
    (he : EntryOf E.program M s op e) (hfrozen : s.engine.freezes = 0)
    (hv : Holds E.program M s.engine.known (.result op i) v.payload) :
    let r := retain E.mem .cache s.heap s.cache.copies v
    (truthTheory E M).Allows s ((s.fillSlot e i r).note (.filled e i v r.value)) := by
  intro r hr
  have hpay : r.value.payload = v.payload := (hr.filled e i v r.value rfl).2.2
  have hblocks : s.engine.boundBlocks = [] := by
    by_contra hne
    have := hs.2.frozen hne
    omega
  have hempty : s.engine.known = .empty :=
    hs.2.scopes.known_eq_empty (by simpa [Engine.boundBlocks] using hblocks)
  have ht : Truthful E M ((s.fillSlot e i r).note (.filled e i v r.value)) := by
    refine ⟨hs.2.scopes, hs.2.possible, hs.2.frozen, hs.2.memo, fun e' entry' j a he' hj => ?_,
      hs.2.constants⟩
    obtain ⟨entry, hentry, hop, -, hslot, -⟩ := State.fillSlot_arena he'
    rw [hop]
    rcases hslot j a hj with hj | ⟨rfl, rfl, rfl⟩
    · exact hs.2.slots e' entry j a hentry hj
    · obtain ⟨entry₀, h₀, hx⟩ := he
      obtain rfl := Option.some.inj (h₀.symm.trans hentry)
      refine Answer.right_known ?_
      rw [hpay, ← hempty]
      exact (hx j v.payload).mp hv
  exact ⟨⟨ht, by simp [State.note]⟩, ⟨hr.store, ht⟩, .refl _⟩

/-- `fill` keeps the answers of an evaluation. -/
theorem truthTheory_fill {e : ℕ} {l : List (Answer π)} (hs : (truthTheory E M).Inv s)
    (he : EntryOf E.program M s op e) (hfrozen : s.engine.freezes = 0)
    (hl : ∀ (i : ℕ) a, l[i]? = some a → Granted E.program M s (.result op i) a) :
    wp (truthTheory E M).contract (fill E e l) s fun _ t =>
      (truthTheory E M).Inv t ∧ SameScopes s.engine t.engine ∧ EntryOf E.program M t op e := by
  let J : ℕ → State Op Blk σ π → Prop := fun _ t =>
    (truthTheory E M).Inv t ∧ SameScopes s.engine t.engine ∧ EntryOf E.program M t op e
  refine wp_bind (wp_mono (wp_fillSlots (J := J) (fun j a t hj ht => ?_) ⟨hs, .refl _, he⟩) ?_)
  · obtain ⟨hi, hsame, hentry⟩ := ht
    refine wp_fillSlot (fun _ => Or.inr rfl) (fun _ => ⟨hi, hsame, hentry⟩)
      (fun _ _ _ _ => ⟨hi, hsame, hentry⟩) fun ent v ha hent hslot => ?_
    have hv : Holds E.program M t.engine.known (.result op (0 + j)) v.payload := by
      rw [hsame.known, Nat.zero_add]
      exact (hl j a hj).right _ (by simp [ha])
    intro r u hr
    obtain ⟨hg, hi', hsame'⟩ :=
      truthTheory_fillSlot hi hentry (hsame.freezes.trans hfrozen) hv hr
    exact ⟨hg, hi', hsame.trans hsame',
      hentry.stable hsame' (Continues.fillSlot E.mem v hent hslot)⟩
  · rintro _ t ⟨hi, hsame, hentry⟩
    refine wp_record fun hr => ?_
    obtain ⟨hg, hi', hsame'⟩ := truthTheory_note (e := .stored e) hi (by simp) hr
    exact ⟨hg, hi', hsame.trans hsame', hentry.stable hsame' (.noted (by simp) t)⟩

/-- A new entry holds nothing. -/
theorem truthTheory_append (op : Op) (key : HashCode) (slots : ℕ) (hs : (truthTheory E M).Inv s) :
    let t := (s.append op key slots).note (.appended op key s.cache.arena.length)
    (truthTheory E M).Allows s t ∧ EntryOf E.program M t op s.cache.arena.length := by
  refine ⟨fun hr => ?_, ⟨op, List.replicate slots none⟩, by simp [State.note, State.append],
    fun _ _ => Iff.rfl⟩
  have ht : Truthful E M
      ((s.append op key slots).note (.appended op key s.cache.arena.length)) := by
    refine ⟨hs.2.scopes, hs.2.possible, hs.2.frozen, hs.2.memo, fun e entry i a he hi => ?_,
      hs.2.constants⟩
    rcases State.append_arena he with he | ⟨-, rfl⟩
    · exact hs.2.slots e entry i a he hi
    · simp [List.getElem?_replicate] at hi
  exact ⟨⟨ht, by simp [State.note]⟩, ⟨hr.store, ht⟩, .refl _⟩

/-- A constant is answered with what its attribute denotes. -/
theorem truthTheory_constant (hE : E.Faithful M) (hm : E.models.op op = none) {i : ℕ}
    (hi : i < E.program.numResults op) (hs : (truthTheory E M).Inv s) :
    wp (truthTheory E M).contract (evaluateConstant E op) s fun r t =>
      (truthTheory E M).Inv t ∧ SameScopes s.engine t.engine ∧
        Granted E.program M t (.result op i) (.completed r.1) := by
  refine wp_evaluateConstant (Q := fun value t => (truthTheory E M).Inv t ∧
    SameScopes s.engine t.engine ∧ Granted E.program M t (.result op i) (.completed value))
    (fun _ => ?_) ?_ ?_ ?_
  · exact ⟨hs, .refl _, by simp, Answer.right_unknown⟩
  · rintro attr - value hattr - - hlook
    refine ⟨hs, .refl _, ?_⟩
    cases value with
    | none => exact ⟨by simp, Answer.right_unknown⟩
    | some v =>
      obtain ⟨model, hmodel, hv⟩ := hs.2.constants attr _ v hlook
      refine ⟨fun w hw => ?_, Answer.right_known fun m hmem _ =>
        hE.constant op attr model _ hm hattr hmodel hv i hi m hmem⟩
      obtain rfl : v = w := by simpa using hw
      exact (hs.1.constants _ v hlook).usable
  · intro attr model hattr hmodel _ type value t hr
    have hpayload : ∀ v, value = some v → model.toEvalValue = some v.payload := by
      intro v hv
      obtain ⟨payload, hp, rfl⟩ := Option.map_eq_some_iff.mp hv
      exact hp
    have ht : Truthful E M t := by
      refine ⟨hs.2.scopes, hs.2.possible, hs.2.frozen, hs.2.memo, hs.2.slots,
        fun attr' type' v hk => ?_⟩
      simp only [t, State.note, State.storeConstant, DenseMap.lookup_tryEmplace] at hk
      split at hk
      · next hkey =>
        obtain ⟨rfl, rfl⟩ := Prod.mk.inj hkey.1
        exact ⟨model, hmodel, hpayload v (Option.some.inj hk)⟩
      · exact hs.2.constants attr' type' v hk
    refine ⟨⟨ht, by simp [t, State.note]⟩, ⟨hr.store, ht⟩, .refl _, fun w hw => ?_, fun p hp => ?_⟩
    · obtain ⟨payload, hp, rfl⟩ := Option.map_eq_some_iff.mp hw
      refine ⟨?_, Or.inl rfl⟩
      simp [t, State.note, State.storeConstant, value, hp]
    · obtain ⟨v, hv, rfl⟩ := Option.map_eq_some_iff.mp hp
      exact fun m hmem _ =>
        hE.constant op attr model _ hm hattr hmodel (hpayload v hv) i hi m hmem
  · intro attr model payload hattr hmodel hv v t hr
    obtain ⟨hg, hinv, hsame⟩ := truthTheory_addStorage v hs hr
    refine ⟨hg, hinv, hsame, fun w hw => ?_, Answer.right_known fun m hmem _ =>
      hE.constant op attr model payload hm hattr hmodel hv i hi m hmem⟩
    obtain rfl : v = w := by simpa using hw
    exact ⟨List.mem_cons_self, Or.inr rfl⟩

end Writes

/-! ## Methods -/

section Methods

variable {E : Setup Op Blk σ π} {M : Set (Moment Op Blk π)} {op : Op}
  {ask : Value Op Blk → EngineM Op Blk σ π (Answer π)}

/-- The engine in a method of `op` that found it as `before` and is at `t`. -/
structure Talking (E : Setup Op Blk σ π) (M : Set (Moment Op Blk π)) (op : Op)
    (before : Engine Op Blk π) (t : Talk Blk π) (s : State Op Blk σ π) : Prop where
  inv : (truthTheory E M).Inv s
  scopes : InMethod E.program op before t.scopes s.engine
  known : s.engine.known = t.known
  held : ∀ w ∈ t.held, Usable s w

section Talking

variable {before : Engine Op Blk π} {t : Talk Blk π} {s u : State Op Blk σ π}

/-- A method goes on after a write that leaves its scopes alone. -/
theorem Talking.same (h : Talking E M op before t s) (hinv : (truthTheory E M).Inv u)
    (hsame : SameScopes s.engine u.engine) (hheap : s.heap ⊆ u.heap) (hq : u.queries = s.queries) :
    Talking E M op before t u :=
  ⟨hinv, h.scopes.same hsame, hsame.known.trans h.known, fun w hw => (h.held w hw).mono hheap hq⟩

/-- Handles that a query may use are distinct. -/
theorem Talking.distinct (h : Talking E M op before t s) {v : EvalValue π} (hv : Usable s v) :
    Distinct t.held v :=
  fun w hw ha => eq_of_addr_eq h.inv.1.nodup (h.held w hw).1 hv.1 ha

/-- The method binds a block. -/
theorem Talking.bind (h : Talking E M op before t s) (hw : Evaluating E.program op before)
    {block : Blk} {args : List (Answer π)}
    (hi : (scopeDialogue (σ := σ) E.program M op).allowed t (.bind block args)) :
    wp (truthTheory E M).contract (MlirInterpreter.bind E block args) s fun r u =>
      Talking E M op before ((scopeDialogue (σ := σ) E.program M op).next t (.bind block args) r)
        u := by
  obtain ⟨⟨hb, hnew, hargs⟩, hfreeze, -, hpossible⟩ := hi
  have hnot := h.scopes.notMem_boundBlocks hw hb hnew
  refine wp_bind (wp_read (wp_bind (wp_require (fun hf => ?_) fun _ => ?_)))
  · simp [hargs] at hf
  refine wp_bind (wp_require (fun hf => ?_) fun _ => wp_record fun hr => ?_)
  · simp only [List.all_eq_false, decide_eq_true_eq, not_not] at hf
    obtain ⟨frame, hframe, rfl⟩ := hf
    exact absurd (List.mem_map_of_mem hframe) hnot
  have hin := h.scopes.bind hw hb hnew args
  have hknown := State.known_bind h.inv.2.scopes hnot hargs
  have ht : Truthful E M ((s.bind E.program block args).note (.bound block args)) := by
    refine ⟨hin.inv, ?_, fun _ => ?_, h.inv.2.memo.bind h.inv.2.scopes hnot hargs hin.inv,
      h.inv.2.slots, h.inv.2.constants⟩
    · change Possible M (s.bind E.program block args).engine.known
      rw [hknown, h.known]
      exact hpossible
    · have hfreezes : s.engine.freezes = before.freezes + t.scopes.freezes := h.scopes.freezes
      change 0 < s.engine.freezes
      omega
  refine ⟨⟨ht, by simp [State.note]⟩, ⟨hr.store, ht⟩, hin, ?_, h.held⟩
  change (s.bind E.program block args).engine.known = _
  rw [hknown, h.known]
  rfl

/-- The method unbinds its last block. -/
theorem Talking.unbind (h : Talking E M op before t s) (hw : Evaluating E.program op before)
    (hbefore : ScopesInv E.program before) {block : Blk}
    (hi : t.scopes.blocks.head? = some block) :
    wp (truthTheory E M).contract (MlirInterpreter.unbind E block) s fun r u =>
      Talking E M op before ((scopeDialogue (σ := σ) E.program M op).next t (.unbind block) r)
        u := by
  obtain ⟨frame, hframe, rfl⟩ := h.scopes.getLast hi
  refine wp_bind (wp_read ?_)
  rw [hframe]
  refine wp_bind (wp_require (fun hf => by simp at hf) fun _ => wp_record fun hr => ?_)
  obtain ⟨frames, hframes⟩ := List.getLast?_eq_some_iff.mp hframe
  have hin := h.scopes.unbind hw hbefore hi
  have hknown : (s.unbind E.program frame).engine.known = s.engine.known.unbind frame.block :=
    State.known_unbind h.inv.2.scopes
  have ht : Truthful E M ((s.unbind E.program frame).note (.unbound frame.block)) := by
    refine ⟨hin.inv, ?_, fun hne => h.inv.2.frozen fun hnil => hne ?_,
      h.inv.2.memo.unbind h.inv.2.scopes hframes, h.inv.2.slots, h.inv.2.constants⟩
    · -- A moment that meets all bindings meets those that are left.
      change Possible M (s.unbind E.program frame).engine.known
      obtain ⟨m, hm, hmeets⟩ := h.inv.2.possible
      refine ⟨m, hm, fun b i p hp => hmeets b i p ?_⟩
      rw [hknown, Bindings.unbind] at hp
      split at hp
      · simp at hp
      · exact hp
    · simp [Engine.boundBlocks, hframes] at hnil
  refine ⟨⟨ht, by simp [State.note]⟩, ⟨hr.store, ht⟩, hin, ?_, h.held⟩
  change (s.unbind E.program frame).engine.known = _
  rw [hknown, h.known]
  rfl

/-- The method freezes the cache. -/
theorem Talking.freeze (h : Talking E M op before t s) :
    wp (truthTheory E M).contract freezeCache s fun r u =>
      Talking E M op before ((scopeDialogue (σ := σ) E.program M op).next t .freezeCache r) u := by
  refine wp_record fun hr => ?_
  have ht : Truthful E M (s.freeze.note .frozen) :=
    ⟨h.scopes.freeze.inv, h.inv.2.possible, fun _ => Nat.succ_pos _,
      h.inv.2.memo.of_eq rfl rfl rfl, h.inv.2.slots, h.inv.2.constants⟩
  exact ⟨⟨ht, by simp [State.note]⟩, ⟨hr.store, ht⟩, h.scopes.freeze, h.known, h.held⟩

/-- The method ends a freeze that is not needed any more. -/
theorem Talking.thaw (h : Talking E M op before t s)
    (hbefore : before.boundBlocks ≠ [] → 0 < before.freezes)
    (hi : (scopeDialogue (σ := σ) E.program M op).allowed t .thawCache) :
    wp (truthTheory E M).contract thawCache s fun r u =>
      Talking E M op before ((scopeDialogue (σ := σ) E.program M op).next t .thawCache r) u := by
  obtain ⟨hpos, hlast⟩ := hi
  have hpos : 0 < t.scopes.freezes := hpos
  have hfreezes := h.scopes.freezes
  refine wp_bind (wp_read (wp_bind (wp_require (fun hf => ?_) fun _ => wp_record fun hr => ?_)))
  · simp at hf
    omega
  have ht : Truthful E M (s.thaw.note .thawed) := by
    refine ⟨(h.scopes.thaw hpos).inv, h.inv.2.possible, fun hne => ?_,
      h.inv.2.memo.of_eq rfl rfl rfl, h.inv.2.slots, h.inv.2.constants⟩
    change 0 < s.engine.freezes - 1
    rcases hlast with hnil | hmore
    · -- The blocks that are bound are others'.
      have := hbefore fun hnone => hne (by
        change s.engine.boundBlocks = []
        rw [h.scopes.blocks, hnone, hnil]
        rfl)
      omega
    · omega
  exact ⟨⟨ht, by simp [State.note]⟩, ⟨hr.store, ht⟩, h.scopes.thaw hpos, h.known, h.held⟩

end Talking

/-- **A scope keeps its promises** to a method that keeps its own. -/
theorem truthTheory_handler {before : Engine Op Blk π} (hw : Evaluating E.program op before)
    (hbefore : ScopesInv E.program before)
    (hfrozen : before.boundBlocks ≠ [] → 0 < before.freezes)
    (ha : (truthTheory E M).Asks ask before.active) (i : ScopeOp Op Blk σ π) (t : Talk Blk π)
    (s : State Op Blk σ π) (hi : (scopeDialogue E.program M op).allowed t i)
    (h : Talking E M op before t s) :
    wp (truthTheory E M).contract (handler E ask i) s fun r u =>
      Talking E M op before ((scopeDialogue E.program M op).next t i r) u ∧
        (scopeDialogue E.program M op).promised t i r := by
  -- A write that leaves the scopes alone.
  have write : ∀ {u : State Op Blk σ π}, (truthTheory E M).Allows s u → s.heap ⊆ u.heap →
      u.queries = s.queries → (truthTheory E M).contract.rely u →
      (truthTheory E M).contract.guar u ∧ Talking E M op before t u := by
    intro u hallow hheap hq hr
    obtain ⟨hg, hinv, hsame⟩ := hallow hr
    exact ⟨hg, h.same hinv hsame hheap hq⟩
  cases i with
  | query v =>
    refine wp_bind (wp_mono (wp_stepsAt Continues.refl (fun _ _ _ => Continues.trans)
      (ha.continuing v s) (ha.spec v s h.inv hi.1 h.scopes.active)) fun a u hu => ?_)
    obtain ⟨⟨hinv, hsame, hans⟩, hcont⟩ := hu
    have hu := h.same hinv hsame hcont.heap.subset hcont.queries
    refine wp_bind (wp_record fun hr => ?_)
    obtain ⟨hg, hinv', hsame'⟩ :=
      truthTheory_note (e := .answered v a) hinv (by rintro _ _ ⟨⟩; exact hans.right) hr
    have hu' := hu.same hinv' hsame' (List.Subset.refl _) rfl
    refine ⟨hg, wp_pure ⟨⟨hinv', hu'.scopes, hu'.known, fun w hw => ?_⟩, ?_, fun w hw => ?_⟩⟩
    · rcases List.mem_append.mp hw with hw | hw
      · exact hans.usable w (by simpa using hw)
      · exact hu'.held w hw
    · rw [← hu.known]
      exact hans.right
    · exact hu.distinct (hans.usable w hw)
  | declareCost =>
    refine wp_declareCost (fun _ => ⟨h, trivial⟩) fun _ hr => ?_
    obtain ⟨hg, hu⟩ := write (truthTheory_allows (e := .charged) (t := s.charge.note .charged) h.inv
      rfl rfl ⟨rfl, rfl, rfl, fun _ => rfl⟩ (h.inv.2.memo.of_eq rfl rfl rfl) rfl (by simp))
      (List.Subset.refl _) rfl hr
    exact ⟨hg, hu, trivial⟩
  | freezeCache => exact wp_mono h.freeze fun _ _ hu => ⟨hu, trivial⟩
  | thawCache => exact wp_mono (h.thaw hfrozen hi) fun _ _ hu => ⟨hu, trivial⟩
  | bind block args => exact wp_mono (h.bind hw hi) fun _ _ hu => ⟨hu, trivial⟩
  | unbind block => exact wp_mono (h.unbind hw hbefore hi.1) fun _ _ hu => ⟨hu, trivial⟩
  | allocate payload =>
    refine wp_bind (wp_read (wp_bind (wp_record fun hr => ?_)))
    obtain ⟨hg, hu⟩ := write (truthTheory_addStorage
      (newStorage E.mem s.heap (.query s.queries) payload) h.inv) (List.subset_cons_self _ _) rfl hr
    refine ⟨hg, wp_pure ⟨⟨hu.inv, hu.scopes, hu.known, fun w hw => ?_⟩, rfl, ?_⟩⟩
    · rcases List.mem_cons.mp hw with rfl | hw
      · exact ⟨List.mem_cons_self, Or.inr rfl⟩
      · exact hu.held w hw
    · exact hu.distinct ⟨List.mem_cons_self, Or.inr rfl⟩
  | getWorld => exact wp_bind (wp_read (wp_pure ⟨h, trivial⟩))
  | setWorld w =>
    refine wp_record fun hr => ?_
    obtain ⟨hg, hu⟩ := write (truthTheory_allows (e := .worldChanged)
      (t := (s.setWorld w).note .worldChanged) h.inv rfl rfl (.refl _) h.inv.2.memo rfl (by simp))
      (List.Subset.refl _) rfl hr
    exact ⟨hg, hu, trivial⟩

/-- A faithful method is run as the theory claims. -/
theorem truthTheory_runScope {α : Type} {ok : Bindings Blk π → List (EvalValue π) → α → Prop}
    {p : ScopeM Op Blk σ π α} {s : State Op Blk σ π} (hp : FaithfulMethod E.program M op ok p)
    (ha : (truthTheory E M).Asks ask s.engine.active) (hs : (truthTheory E M).Inv s)
    (hw : Evaluating E.program op s.engine) :
    wp (truthTheory E M).contract (runScope E ask p) s fun a t =>
      (truthTheory E M).Inv t ∧ SameScopes s.engine t.engine ∧
        ∃ held, (∀ w ∈ held, Usable t w) ∧ ok s.engine.known held a := by
  have hown : OwnUnbound E.program op s.engine.known := fun b hb i => hs.2.scopes.known_own hw hb i
  refine wp_mono ((hp _ hs.2.possible hown).wp_run (J := Talking E M op s.engine)
    (fun i t u hi hu => truthTheory_handler hw hs.2.scopes hs.2.frozen ha i t u hi hu)
    ⟨hs, .start hs.2.scopes, rfl, by simp⟩) ?_
  rintro a t ⟨⟨o, ρ, held⟩, ⟨rfl, hok⟩, ht⟩
  exact ⟨ht.inv, ht.scopes.sameScopes, held, ht.held, hok⟩

end Methods

/-! ## The theory holds -/

section Places

variable {E : Setup Op Blk σ π} {M : Set (Moment Op Blk π)} {s s' : State Op Blk σ π} {op : Op}
  {i : ℕ}

/-- What was right in an operation is right after it. -/
theorem truthTheory_leave {a : Answer π} (hs : (truthTheory E M).Inv s)
    (hact : op ∉ s.engine.active)
    (hd : (truthTheory E M).Does op ((s.enter op).note (.entered op)) s')
    (hout : (truthTheory E M).Done s' op i a)
    (hr : (truthTheory E M).contract.rely ((s'.leave op).note (.left op))) :
    (truthTheory E M).contract.guar ((s'.leave op).note (.left op)) ∧
      (truthTheory E M).Inv ((s'.leave op).note (.left op)) ∧
      (truthTheory E M).Rel s ((s'.leave op).note (.left op)) ∧
      (truthTheory E M).Ans ((s'.leave op).note (.left op)) (.result op i) a := by
  have hactive : (s'.leave op).engine.active = s.engine.active := by
    have h : s'.engine.active = Insert.insert op s.engine.active := hd.own.active
    simp [State.leave, h, hact]
  have hsame : SameScopes s.engine (s'.leave op).engine :=
    ⟨hactive, hd.own.blocks, hd.own.freezes, hd.own.bindings⟩
  have ht : Truthful E M ((s'.leave op).note (.left op)) :=
    ⟨hsame.inv hs.2.scopes, hd.inv.2.possible, hd.inv.2.frozen, hd.inv.2.memo.of_eq rfl rfl rfl,
      hd.inv.2.slots, hd.inv.2.constants⟩
  exact ⟨⟨ht, by simp [State.note]⟩, ⟨hr.store, ht⟩, hsame, hout.usable, hout.right⟩

/-- Nothing that is right is lost by a charge. -/
theorem truthTheory_charge {cached : Option CacheLookup} (hs : (truthTheory E M).Inv s)
    (hw : (truthTheory E M).Within s op) (hlooked : (truthTheory E M).Looked s op i cached)
    (hr : (truthTheory E M).contract.rely (s.charge.note .charged)) :
    (truthTheory E M).contract.guar (s.charge.note .charged) ∧
      (truthTheory E M).AllowsOwn op s ((s.charge.note .charged).note (.evaluating op))
        ((truthTheory E M).Ready ((s.charge.note .charged).note (.evaluating op)) op cached ∧
         (truthTheory E M).Running ((s.charge.note .charged).note (.evaluating op)) op) := by
  have hsame : SameScopes s.engine (s.charge.note .charged).engine :=
    ⟨rfl, rfl, rfl, fun _ => rfl⟩
  obtain ⟨hg, hinv, -⟩ := truthTheory_allows (e := .charged) (t := s.charge.note .charged) hs rfl
    rfl hsame (hs.2.memo.of_eq rfl rfl rfl) rfl (by simp) hr
  refine ⟨hg, fun hr' => ?_⟩
  obtain ⟨hg', hinv', -⟩ := truthTheory_note (e := .evaluating op) hinv (by simp) hr'
  refine ⟨hg', hinv', ⟨rfl, rfl, rfl, fun _ => rfl⟩, hw.same hsame, ?_, trivial⟩
  rcases cached with _ | ⟨key, _ | e, n⟩
  · trivial
  · trivial
  · obtain ⟨entry, he, hx⟩ := hlooked.1
    exact ⟨entry, he, hx⟩

/-- The entry of an operation is filled with what is right for it. -/
theorem truthTheory_appendEntry {s₀ : State Op Blk σ π} {key : HashCode} {l : List (Answer π)}
    (hs : (truthTheory E M).Inv s) (hw : (truthTheory E M).Within s op)
    (hl : (truthTheory E M).Results s op l) (hfreeze : s₀.engine.freezes = 0)
    (hown : (truthTheory E M).Own op s₀ s) :
    wp (truthTheory E M).contract (appendEntry E op key l) s fun e s' =>
      (truthTheory E M).Inv s' ∧
        (truthTheory E M).Own op s s' ∧
        (truthTheory E M).Within s' op ∧
        (truthTheory E M).Kept s' op e := by
  refine wp_bind (wp_read (wp_bind (wp_record fun hr => ?_)))
  obtain ⟨hallow, hentry⟩ := truthTheory_append (E := E) (M := M) op key l.length hs
  obtain ⟨hg, hinv, hsame⟩ := hallow hr
  have hgranted : ∀ (i : ℕ) a, l[i]? = some a → Granted E.program M
      ((s.append op key l.length).note (.appended op key s.cache.arena.length))
      (.result op i) a := fun i a hi =>
    ⟨fun w hw => (hl.2 i a hi).usable w hw, (hl.2 i a hi).right⟩
  refine ⟨hg, wp_bind (wp_mono
    (truthTheory_fill hinv hentry (hown.freezes.trans hfreeze) hgranted) fun _ u hu => ?_)⟩
  have hsame' := hsame.trans hu.2.1
  exact wp_pure ⟨hu.1, hsame', hw.same hsame', hu.2.2⟩

end Places

/-- **The theory of faithful models.** -/
theorem truthTheory_sound [Fintype Op] {E : Setup Op Blk σ π} {M : Set (Moment Op Blk π)}
    (hE : E.Faithful M) : (truthTheory E M).Sound E where
  rel_refl s := .refl _
  rel_trans _ _ _ h h' := h.trans h'
  own_of_rel _ _ _ h := h
  own_trans _ _ _ _ h h' := h.trans h'
  own_active _ _ _ h := h.active
  within_stable _ _ _ hm hw := hw.same hm.rel
  unevaluated_stable _ _ _ _ _ _ := trivial
  running_stable _ _ _ _ _ _ := trivial
  missed_stable _ _ _ _ _ _ _ _ := trivial
  found_stable _ _ _ _ _ _ hm _ h := h.stable hm.rel hm.continues
  kept_stable _ _ _ _ hm _ h := h.stable hm.rel hm.continues
  results_stable _ _ _ _ _ hd hl := ⟨hl.1, fun i a ha => (hl.2 i a ha).stable hd.own hd.continues⟩
  unanswered _ _ _ _ _ := trivial
  memo_hit s v a hs _ hm :=
    ⟨fun w hw => hs.1.memo v a w hm hw, hs.2.memo.now hs.2.scopes hm⟩
  memo_add _ _ _ _ _ hm ha _ _ := truthTheory_memoize hm.inv ha.right
  ans_memoized _ _ _ hm ha := ha.stable hm.rel hm.continues
  arg s b i hs _ := by
    cases hb : s.engine.bindings.lookup (b, i) with
    | none => exact ⟨by simp, Answer.right_unknown⟩
    | some a =>
      exact ⟨fun w hw => hs.1.bindings _ a w hb hw, fun p hp => .arg (by simpa [Engine.known, hb])⟩
  invalid _ _ _ _ hv hi := absurd hv (not_lt.mpr hi)
  constant s op i hm hs _ hi := truthTheory_constant hE hm hi hs
  cycle _ _ _ _ _ _ _ _ _ := ⟨by simp, Answer.right_signal _⟩
  enter s op i model _ hs _ _ _ hact hr := by
    have hinv : ScopesInv E.program (s.enter op).engine :=
      ⟨hs.2.scopes.nodup, fun b hb => Finset.mem_insert_of_mem (hs.2.scopes.owned b hb),
        hs.2.scopes.bound⟩
    have ht : Truthful E M ((s.enter op).note (.entered op)) :=
      ⟨hinv, hs.2.possible, hs.2.frozen, hs.2.memo.of_eq rfl rfl rfl, hs.2.slots, hs.2.constants⟩
    refine ⟨⟨ht, by simp [State.note]⟩, ⟨hr.store, ht⟩, Finset.mem_insert_self _ _, fun b hb => ?_⟩
    rintro rfl
    exact hact (hs.2.scopes.owned b hb)
  leave _ _ _ _ _ hs _ _ hact hd hout hr := truthTheory_leave hs hact hd hout hr
  cacheable s op model ask hm ha hs hw _ :=
    wp_mono (truthTheory_runScope (hE.op op model hm).isCacheable ha hs hw) fun r t ht =>
      ⟨ht.1, ht.2.1, fun _ => trivial, fun _ => trivial, fun _ _ => trivial,
        fun _ _ _ _ => ⟨by simp, Answer.right_signal _⟩⟩
  hash s op model ask hm ha hs hw _ _ :=
    wp_mono (truthTheory_runScope (hE.op op model hm).getHash ha hs hw) fun r t ht =>
      ⟨ht.1, ht.2.1, fun _ _ => trivial, fun _ _ _ _ => ⟨by simp, Answer.right_signal _⟩⟩
  unevaluated_search _ _ _ _ _ := trivial
  searching _ _ _ hs hw _ := truthTheory_noteOwn hs hw (by simp) trivial
  candidate_range _ _ _ _ _ _ _ := Or.inr rfl
  scan_length _ _ _ _ _ _ _ := Or.inl rfl
  own _ op _ _ _ entry hs hw _ _ he hop :=
    truthTheory_noteOwn hs hw (by simp) ⟨entry, he, hop ▸ fun _ _ => Iff.rfl⟩
  shape _ _ _ _ _ _ hs hw _ _ _ _ _ := truthTheory_noteOwn hs hw (by simp) trivial
  equivalent s op key n e entry model ask hm ha hs hw _ _ _ _ _ :=
    wp_mono (truthTheory_runScope ((hE.op op model hm).isEquivalentTo entry.op) ha hs hw)
      fun r t ht => ⟨ht.1, ht.2.1, fun hr => by
        obtain ⟨held, -, hok⟩ := ht.2.2
        rw [ht.2.1.known]
        exact hok hr⟩
  skipped _ _ _ _ _ _ _ hs hw _ _ _ _ _ _ := truthTheory_noteOwn hs hw (by simp) trivial
  different _ _ _ _ _ _ hs hw _ _ _ _ _ _ := truthTheory_noteOwn hs hw (by simp) trivial
  matching _ _ _ _ _ entry hs hw _ _ he _ _ hc :=
    truthTheory_noteOwn hs hw (by simp) ⟨entry, he, hc rfl⟩
  exhausted _ _ _ _ _ _ _ _ _ _ := ⟨by simp, Answer.right_signal _⟩
  charge _ _ _ _ hs hw _ _ hlooked _ hr := truthTheory_charge hs hw hlooked hr
  evaluates s op model ask cached hm ha hs hw hready := by
    refine wp_mono (wp_stepsAt Continues.refl (fun _ _ _ => Continues.trans)
      (continuing_runScope ha.continuing _ s)
      (truthTheory_runScope (hE.op op model hm).evaluate ha hs hw)) fun l t ht => ?_
    obtain ⟨⟨hinv, hsame, held, husable, hlen, hheld, hright⟩, hcont⟩ := ht
    refine ⟨hinv, hsame, ⟨hlen, fun i a hi => ⟨fun w hw => ?_, ?_⟩⟩, ?_⟩
    · exact husable w (hheld a (List.mem_of_getElem? hi) w hw)
    · rw [hsame.known]
      exact hright i a hi
    · rcases cached with _ | ⟨key, _ | e, n⟩
      · trivial
      · trivial
      · exact EntryOf.stable hready hsame hcont
  count _ _ _ _ _ hl hne := absurd hl.1 hne
  evaluated s op l cached hs hw _ hready _ _ :=
    truthTheory_noteOwn hs hw (by simp) ⟨hready, trivial⟩
  evaluated_stable _ _ _ _ _ _ _ := trivial
  ready_stable s s' op cached hm _ h := by
    rcases cached with _ | ⟨key, _ | e, n⟩
    · trivial
    · trivial
    · exact EntryOf.stable h hm.rel hm.continues
  ready s op cached _ _ _ _ h := by
    rcases cached with ⟨key, _ | e, n⟩
    · trivial
    · exact h
  reuse _ _ _ _ _ _ hs _ _ _ := truthTheory_note hs (by simp)
  fill s₀ s op e l hs _ he hl _ _ hfreeze hown :=
    wp_mono (truthTheory_fill hs he (hown.freezes.trans hfreeze) hl.2) fun _ _ ht => ⟨ht.1, ht.2.1⟩
  append _ _ _ _ _ _ hs hw _ _ hl _ _ hfreeze hown := truthTheory_appendEntry hs hw hl hfreeze hown
  kept _ _ _ _ _ _ _ h := h
  kept_range _ _ _ _ _ _ _ _ := Or.inr rfl
  kept_slot _ _ _ _ _ _ hs _ he hentry hi := Truthful.slot_granted hs he hentry hi
  unstored _ _ _ _ _ _ _ _ _ _ := trivial
  unstored_stable _ _ _ _ _ _ _ _ := trivial
  result _ _ _ i a _ _ hl hi _ := hl.2 i a hi
  memo_own _ _ _ _ hs _ ha _ _ _ := truthTheory_memoize hs ha.right
  hit _ _ _ _ _ _ _ _ hs _ _ he hentry hi := Truthful.slot_granted hs he hentry hi
  finish _ _ _ _ _ _ _ _ _ _ h := h

/-! ## Every query, every history -/

section Histories

variable [Fintype Op] {E : Setup Op Blk σ π} {M : Set (Moment Op Blk π)}
  {past : List (State Op Blk σ π)} {s : State Op Blk σ π}

/-- A query by an idle engine is answered right, and leaves the engine idle. -/
theorem truthTheory_query (hE : E.Faithful M) (hidle : s.engine.Idle) (hs : Truthful E M s)
    (engine budget : ℕ) {value : Value Op Blk} (hv : E.program.Valid value) :
    wp (truthTheory E M).contract (query E engine budget value) s fun r t =>
      (t.engine.Idle ∧ Truthful E M t) ∧ r.1.Right E.program M .empty value := by
  refine wp_query (fun hbusy => by simp [hidle.queryAllocator] at hbusy) fun hr => ?_
  let t := (s.beginQuery engine budget).note (.queryStarted engine budget value)
  have hstart : SameScopes s.engine t.engine := ⟨rfl, rfl, rfl, fun _ => rfl⟩
  have ht : Truthful E M t := hs.same rfl rfl hstart (hs.memo.of_eq rfl rfl rfl)
  have hempty : t.engine.known = .empty :=
    hstart.known.trans (hs.scopes.known_eq_empty hidle.frames)
  refine ⟨⟨ht, by simp [State.note]⟩, ?_⟩
  refine wp_mono ((truthTheory_sound hE).wp_compute (Nat.lt_succ_self _) ⟨hr.store, ht⟩ hv trivial
    (by omega)) fun r u hspec => ?_
  obtain ⟨hu, hsame, hans⟩ := hspec
  have hsame : SameScopes t.engine u.engine := hsame
  have hright : r.1.Right E.program M .empty value := by
    rw [← hempty, ← hsame.known]
    exact hans.right
  -- The end of the query, in the state `w` with the answer `a`.
  have finish : ∀ (w : State Op Blk σ π) (a : Answer π), Truthful E M w →
      SameScopes t.engine w.engine → a.Right E.program M .empty value →
      (w.engine.scopesEnded = false → (truthTheory E M).contract.abort .leakedScope) ∧
        (w.engine.scopesEnded = true →
          (truthTheory E M).contract.rely (w.endQuery.note (.queryEnded engine value a)) →
          TruthGuar E M (w.endQuery.note (.queryEnded engine value a)) ∧
            ((w.endQuery.note (.queryEnded engine value a)).engine.Idle ∧
              Truthful E M (w.endQuery.note (.queryEnded engine value a))) ∧
            a.Right E.program M .empty value) := by
    intro w a hw hwsame ha
    obtain ⟨hclean, hwidle⟩ := hidle.ended engine budget hwsame
    have hend : Truthful E M (w.endQuery.note (.queryEnded engine value a)) :=
      hw.same rfl rfl ⟨rfl, rfl, rfl, fun _ => rfl⟩ fun k v b hb => by
        simp [State.note, State.endQuery] at hb
    exact ⟨fun hleak => by simp [hclean] at hleak, fun _ _ =>
      ⟨⟨hend, by simp [State.note]⟩, ⟨hwidle, hend⟩, ha⟩⟩
  refine wp_handOut (fun _ => finish u r.1 hu.2 hsame hright) fun v hv hr' => ?_
  have hpay := (hr'.handedOut v _ rfl).2.2
  have hout : ∀ x, Truthful E M ((u.retainAnswer engine x).note (.handedOut v x.value)) := fun _ =>
    hu.2.same rfl rfl (.refl _) hu.2.memo
  refine ⟨⟨hout _, by simp [State.note]⟩, finish _ _ (hout _) hsame (Answer.right_known ?_)⟩
  rw [hpay]
  exact hright v.payload (by simp [hv])

/-- **An engine with faithful models answers right.**  After any history, a query that any engine
asks with any budget returns, and if its answer is known, the value is this payload at every moment
of the program.  Throughout, what is bound, memoized and cached is in order and right, and so is the
answer of every nested query, for what is bound when it is given. -/
theorem faithful_query (hE : E.Faithful M) (hC : E.models.Confined) (hM : M.Nonempty)
    (h : History E past s) (engine budget : ℕ) {value : Value Op Blk}
    (hv : E.program.Valid value) :
    (∀ t ∈ past ++ (query E engine budget value s).visited, TruthGuar E M t) ∧
      ∃ r s', (query E engine budget value s).outcome = .ok (r, s') ∧
        ∀ v, r.1 = .known v → ∀ m ∈ M, m value = some v.payload := by
  have hrely := (handleTheory_history hC h engine budget value).2
  have hpast : (s.engine.Idle ∧ Truthful E M s) ∧ ∀ t ∈ past, TruthGuar E M t := by
    refine h.invariant_of_rely (J := fun s => s.engine.Idle ∧ Truthful E M s) (fun w => ?_)
      (fun s engine budget value hv hs hr => ?_) (fun s hs => ?_)
      fun t ht => hrely t (List.mem_append_left _ ht)
    · have hidle : (State.init w : State Op Blk σ π).engine.Idle :=
        ⟨rfl, rfl, fun _ => rfl, rfl, rfl, fun _ => rfl⟩
      have hinit : Truthful E M (State.init w) := by
        refine ⟨hidle.scopes, .empty hM, fun hne => absurd rfl hne, fun k v a ha => ?_, ?_, ?_⟩
        · rw [hidle.queryAnswers] at ha
          cases ha
        · simp [State.init, EvalCache.empty]
        · simp [State.init, EvalCache.empty]
      exact ⟨⟨hidle, hinit⟩, hinit, by simp [State.init]⟩
    · obtain ⟨hg, hq, -⟩ := truthTheory_query hE hs.1 hs.2 engine budget hv hr
      exact ⟨hg, fun r s' hr' => (hq r s' hr').1⟩
    · have hclear : Truthful E M (s.clear.note .cleared) := by
        refine ⟨hs.2.scopes, hs.2.possible, hs.2.frozen, hs.2.memo, ?_, ?_⟩ <;>
          simp [State.note, State.clear, EvalCache.empty]
      exact ⟨⟨hs.1, hclear⟩, hclear, by simp [State.note]⟩
  obtain ⟨hg, hq, hx⟩ := truthTheory_query hE hpast.1.1 hpast.1.2 engine budget hv
    fun t ht => hrely t (List.mem_append_right _ ht)
  refine ⟨fun t ht => ?_, ?_⟩
  · rcases List.mem_append.mp ht with ht | ht
    · exact hpast.2 t ht
    · exact hg t ht
  · cases ho : (query E engine budget value s).outcome with
    | error x =>
      have hcache := (cacheTheory_history h engine budget value).2 x ho
      exact ((hx x ho).elim hcache.1 hcache.2).elim
    | ok r =>
      refine ⟨r.1, r.2, rfl, fun v hv' => (holds_empty_iff (P := E.program)).mp ?_⟩
      exact (hq _ _ ho).2 v.payload (by simp [hv'])

end Histories

end MlirInterpreter
