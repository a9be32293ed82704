import MlirInterpreter.Engine.Query

/-!
# The cache under arbitrary models

What holds of the cache in every state of every run, for models that may do anything a scope lets
them do.

* `CacheInv` is the representation invariant: positions of buckets and slots of entries exist,
  entries of one bucket belong to different operations, and only known answers the cache owns are
  stored.
* `SearchInv` describes the searches, by the events of the log: `examinations op log` lists the
  candidates examined for `op` since its lookup started.

Both are kept by the theory `cacheTheory`, which also shows that neither of the two bounds `compute`
comes with is ever reached, and that no entry or slot is read out of range.
-/

set_option autoImplicit false

namespace MlirInterpreter

open Recorded

variable {Op Blk σ π : Type} [DecidableEq Op]

/-! ## The searches of a log -/

/-- The candidates examined for `op` since its last lookup started, oldest first, with their
verdicts. -/
def examinations (op : Op) : List (Event Op Blk π) → List (ℕ × Verdict)
  | [] => []
  | .entered o :: log => if o = op then [] else examinations op log
  | .searching o _ :: log => if o = op then [] else examinations op log
  | .examined o _ n verdict :: log =>
    if o = op then examinations op log ++ [(n, verdict)] else examinations op log
  | _ :: log => examinations op log

/-- The key of the last lookup of `op` since it was entered. -/
def searchKey (op : Op) : List (Event Op Blk π) → Option HashCode
  | [] => none
  | .entered o :: log => if o = op then none else searchKey op log
  | .searching o key :: log => if o = op then some key else searchKey op log
  | _ :: log => searchKey op log

/-- The candidates `examinations` lists that were examined by the lookup itself, before the
evaluation that followed it. -/
def lookupExaminations (op : Op) : List (Event Op Blk π) → List (ℕ × Verdict)
  | [] => []
  | .entered o :: log => if o = op then [] else lookupExaminations op log
  | .searching o _ :: log => if o = op then [] else lookupExaminations op log
  | .evaluating o :: log => if o = op then examinations op log else lookupExaminations op log
  | _ :: log => lookupExaminations op log

/-- The operation whose searches an event is about. -/
def Event.searcher : Event Op Blk π → Option Op
  | .entered op => some op
  | .searching op _ => some op
  | .examined op _ _ _ => some op
  | .evaluating op => some op
  | _ => none

/-- The searches for `op` look the same in two logs. -/
structure Quiet (op : Op) (log log' : List (Event Op Blk π)) : Prop where
  examinations : examinations op log' = examinations op log
  searchKey : searchKey op log' = searchKey op log
  lookupExaminations : lookupExaminations op log' = lookupExaminations op log

theorem Quiet.refl (op : Op) (log : List (Event Op Blk π)) : Quiet op log log := ⟨rfl, rfl, rfl⟩

theorem Quiet.trans {op : Op} {a b c : List (Event Op Blk π)} (h : Quiet op a b)
    (h' : Quiet op b c) : Quiet op a c :=
  ⟨h'.1.trans h.1, h'.2.trans h.2, h'.3.trans h.3⟩

/-- An event about another operation changes nothing for `op`. -/
theorem Quiet.cons {op : Op} {e : Event Op Blk π} (he : e.searcher ≠ some op)
    (log : List (Event Op Blk π)) : Quiet op log (e :: log) := by
  constructor <;> cases e <;>
    simp_all [MlirInterpreter.examinations, MlirInterpreter.searchKey,
      MlirInterpreter.lookupExaminations, Event.searcher]

/-- What was examined, as a search that has not found anything: the first `n` candidates, in
order. -/
def MissedAll (l : List (ℕ × Verdict)) (n : ℕ) : Prop :=
  l.map Prod.fst = List.range n ∧ ∀ p ∈ l, p.2.isMatch = false

/-- What was examined, as a search that has found the candidate `n`: the ones before it, then it. -/
def FoundAt (l : List (ℕ × Verdict)) (n : ℕ) : Prop :=
  ∃ l' verdict, l = l' ++ [(n, verdict)] ∧ MissedAll l' n ∧ verdict.isMatch = true

theorem MissedAll.nil : MissedAll [] 0 := ⟨rfl, by simp⟩

theorem MissedAll.snoc {l : List (ℕ × Verdict)} {n : ℕ} {verdict : Verdict} (h : MissedAll l n)
    (hv : verdict.isMatch = false) : MissedAll (l ++ [(n, verdict)]) (n + 1) := by
  refine ⟨by simp [h.1, List.range_succ], fun p hp => ?_⟩
  rcases List.mem_append.mp hp with hp | hp
  · exact h.2 p hp
  · rw [List.mem_singleton.mp hp]
    exact hv

/-! ## The invariants -/

/-- An entry with a filled slot. -/
def CacheEntry.isFilled (entry : CacheEntry Op π) : Prop :=
  ∃ (i : ℕ) (a : Answer π), entry.results[i]? = some (some a)

omit [DecidableEq Op] in
theorem CacheEntry.isFilled.extends {e e' : CacheEntry Op π} (h : e.isFilled)
    (hx : e.Extends e') : e'.isFilled := by
  obtain ⟨i, a, hi⟩ := h
  exact ⟨i, a, hx.slot i a hi⟩

section

variable [DecidableEq Blk]

/-- The representation invariant of the cache and the memo. -/
structure CacheInv (P : Program Op Blk) (s : State Op Blk σ π) : Prop where
  /-- A position of a bucket names an entry. -/
  bucket_lt : ∀ key (n e : ℕ), (s.bucket key)[n]? = some e → e < s.cache.arena.length
  /-- The entries of a bucket belong to different operations. -/
  bucket_ops : ∀ key (n m e e' : ℕ) (entry entry' : CacheEntry Op π), (s.bucket key)[n]? = some e →
    (s.bucket key)[m]? = some e' → s.cache.arena[e]? = some entry →
    s.cache.arena[e']? = some entry' → entry.op = entry'.op → n = m
  /-- An entry has one slot for every result of its operation. -/
  slots : ∀ (e : ℕ) (entry : CacheEntry Op π), s.cache.arena[e]? = some entry →
    entry.results.length = P.numResults entry.op
  /-- A filled slot holds a known answer the cache owns. -/
  known : ∀ (e : ℕ) (entry : CacheEntry Op π) (i : ℕ) (a : Answer π),
    s.cache.arena[e]? = some entry →
    entry.results[i]? = some (some a) → ∃ v : EvalValue π, a = .known v ∧ v.owner = .cache
  /-- What the cache's allocator retained belongs to it. -/
  copies : ∀ addr v, s.cache.copies.lookup addr = some v → v.owner = .cache
  /-- No signal is memoized. -/
  memo : ∀ v a, s.memo v = some a → a.isCompleted = true

/-- Every entry has a filled slot, unless it has just been appended. -/
def EntriesFilled (s : State Op Blk σ π) : Prop :=
  ∀ (e : ℕ) (entry : CacheEntry Op π), s.cache.arena[e]? = some entry →
    entry.isFilled ∨ ∃ op key, s.log.head? = some (.appended op key e)

/-- Every entry has a filled slot. -/
def AllFilled (s : State Op Blk σ π) : Prop :=
  ∀ (e : ℕ) (entry : CacheEntry Op π), s.cache.arena[e]? = some entry → entry.isFilled

omit [DecidableEq Op] [DecidableEq Blk] in
theorem AllFilled.entriesFilled {s : State Op Blk σ π} (h : AllFilled s) : EntriesFilled s :=
  fun e entry he => Or.inl (h e entry he)

/-- What the events of a search say about the bucket, in the state right after the event. -/
structure SearchInv (P : Program Op Blk) (s : State Op Blk σ π) : Prop where
  /-- A verdict is about the candidate at that position. -/
  examined : ∀ op key n verdict, s.log.head? = some (.examined op key n verdict) →
    searchKey op s.log = some key ∧ ∃ (e : ℕ) (entry : CacheEntry Op π),
      (s.bucket key)[n]? = some e ∧
      s.cache.arena[e]? = some entry ∧ (verdict = .own ↔ entry.op = op) ∧
      (verdict = .otherShape ↔ entry.op ≠ op ∧ entry.results.length ≠ P.numResults op)
  /-- A lookup that is followed by an evaluation examined the whole bucket, or found an entry. -/
  evaluating : ∀ op key, s.log.head? = some (.evaluating op) → searchKey op s.log = some key →
    MissedAll (lookupExaminations op s.log) (s.bucket key).length ∨
      ∃ n, FoundAt (lookupExaminations op s.log) n
  /-- Before an entry is appended the whole bucket was examined. -/
  appended : ∀ op key e, s.log.head? = some (.appended op key e) →
    searchKey op s.log = some key ∧ (∃ bucket, s.bucket key = bucket ++ [e] ∧
      MissedAll (examinations op s.log) bucket.length) ∧
      lookupExaminations op s.log <+: examinations op s.log
  /-- Before an entry is reused all candidates up to it were examined, and it was not one of those
  the lookup examined. -/
  reused : ∀ op key n e, s.log.head? = some (.reused op key n e) →
    searchKey op s.log = some key ∧ (s.bucket key)[n]? = some e ∧
      FoundAt (examinations op s.log) n ∧ (lookupExaminations op s.log).length ≤ n ∧
      lookupExaminations op s.log <+: examinations op s.log

/-- The events `SearchInv` is about. -/
def Event.isSearch : Event Op Blk π → Bool
  | .examined .. => true
  | .evaluating _ => true
  | .appended .. => true
  | .reused .. => true
  | _ => false

omit [DecidableEq Blk] in
theorem SearchInv.of_head {P : Program Op Blk} {s : State Op Blk σ π}
    (h : ∀ e, s.log.head? = some e → e.isSearch = false) : SearchInv P s where
  examined _ _ _ _ he := by simpa [Event.isSearch] using h _ he
  evaluating _ _ he _ := by simpa [Event.isSearch] using h _ he
  appended _ _ _ he := by simpa [Event.isSearch] using h _ he
  reused _ _ _ _ he := by simpa [Event.isSearch] using h _ he

/-- What has to be shown of every state. -/
structure CacheGuar (P : Program Op Blk) (s : State Op Blk σ π) : Prop where
  inv : CacheInv P s
  filled : EntriesFilled s
  search : SearchInv P s

/-- A write that leaves the cache alone. -/
theorem CacheInv.of_eq {P : Program Op Blk} {s t : State Op Blk σ π} (h : CacheInv P s)
    (hc : t.cache = s.cache) (hm : ∀ v a, t.memo v = some a → a.isCompleted = true) :
    CacheInv P t := by
  have hb : t.bucket = s.bucket := by funext key; rw [State.bucket, State.bucket, hc]
  exact ⟨hb ▸ hc ▸ h.bucket_lt, hb ▸ hc ▸ h.bucket_ops, hc ▸ h.slots, hc ▸ h.known,
    hc ▸ h.copies, hm⟩

omit [DecidableEq Op] [DecidableEq Blk] in
theorem AllFilled.of_eq {s t : State Op Blk σ π} (h : AllFilled s) (hc : t.cache = s.cache) :
    AllFilled t := by
  rw [AllFilled, hc]
  exact h

/-- A bucket has at most one entry for every operation. -/
theorem CacheInv.bucket_length_le [Fintype Op] {P : Program Op Blk} {s : State Op Blk σ π}
    (h : CacheInv P s) (key : HashCode) : (s.bucket key).length ≤ Fintype.card Op := by
  have hget : ∀ i : Fin (s.bucket key).length,
      ∃ entry, s.cache.arena[(s.bucket key).get i]? = some entry := fun i =>
    ⟨_, List.getElem?_eq_getElem (h.bucket_lt key i _ (by simp))⟩
  choose entry hentry using hget
  have hinj : Function.Injective fun i => (entry i).op := fun i j hij =>
    Fin.ext (h.bucket_ops key i j _ _ _ _ (by simp) (by simp) (hentry i) (hentry j) hij)
  simpa using Fintype.card_le_of_injective _ hinj

/-! ## A search under way -/

/-- The first `n` candidates of the bucket were examined for `op`, and none of them matched. -/
structure SearchMissed (s : State Op Blk σ π) (op : Op) (key : HashCode) (n : ℕ) : Prop where
  searchKey : searchKey op s.log = some key
  examined : MissedAll (examinations op s.log) n
  le : n ≤ (s.bucket key).length
  lookup : lookupExaminations op s.log <+: examinations op s.log
  ops : ∀ (m e : ℕ) (entry : CacheEntry Op π), m < n → (s.bucket key)[m]? = some e →
    s.cache.arena[e]? = some entry → entry.op ≠ op

/-- An entry that has a slot for every result of `op`. -/
def HasSlots (P : Program Op Blk) (s : State Op Blk σ π) (op : Op) (e : ℕ) : Prop :=
  ∃ entry, s.cache.arena[e]? = some entry ∧ entry.results.length = P.numResults op

/-- The candidate `n` of the bucket, the entry `e`, was examined last for `op`, and matched. -/
structure SearchFound (P : Program Op Blk) (s : State Op Blk σ π) (op : Op) (key : HashCode)
    (n e : ℕ) : Prop where
  searchKey : searchKey op s.log = some key
  examined : FoundAt (examinations op s.log) n
  bucket : (s.bucket key)[n]? = some e
  lookup : lookupExaminations op s.log <+: examinations op s.log
  length_le : (lookupExaminations op s.log).length ≤ n
  slots : HasSlots P s op e

omit [DecidableEq Op] [DecidableEq Blk] in
theorem HasSlots.stable {P : Program Op Blk} {s s' : State Op Blk σ π} {op : Op} {e : ℕ}
    (h : HasSlots P s op e) (hc : Continues s s') : HasSlots P s' op e := by
  obtain ⟨entry, he, hl⟩ := h
  obtain ⟨entry', he', hx⟩ := hc.cache.arena e entry he
  exact ⟨entry', he', hx.length.trans hl⟩

theorem SearchMissed.stable {P : Program Op Blk} {s s' : State Op Blk σ π} {op : Op}
    {key : HashCode} {n : ℕ} (h : SearchMissed s op key n) (hi : CacheInv P s)
    (hc : Continues s s') (hq : Quiet op s.log s'.log) : SearchMissed s' op key n where
  searchKey := hq.searchKey.trans h.searchKey
  examined := hq.examinations ▸ h.examined
  le := h.le.trans (hc.cache.bucket key).length_le
  lookup := by rw [hq.lookupExaminations, hq.examinations]; exact h.lookup
  ops m e entry' hm hb he := by
    have hlt : m < (s.bucket key).length := lt_of_lt_of_le hm h.le
    have hb' := hc.cache.getElem? (List.getElem?_eq_getElem hlt)
    obtain rfl : (s.bucket key)[m] = e := by simpa using hb'.symm.trans hb
    have hlt' := hi.bucket_lt key m _ (List.getElem?_eq_getElem hlt)
    obtain ⟨entry, he', hx⟩ := hc.cache.arena _ _ (List.getElem?_eq_getElem hlt')
    obtain rfl : entry = entry' := by simpa using he'.symm.trans he
    rw [hx.op]
    exact h.ops m _ _ hm (List.getElem?_eq_getElem hlt) (List.getElem?_eq_getElem hlt')

end

theorem SearchFound.stable {P : Program Op Blk} {s s' : State Op Blk σ π} {op : Op}
    {key : HashCode} {n e : ℕ} (h : SearchFound P s op key n e)
    (hc : Continues s s') (hq : Quiet op s.log s'.log) : SearchFound P s' op key n e where
  searchKey := hq.searchKey.trans h.searchKey
  examined := hq.examinations ▸ h.examined
  bucket := hc.cache.getElem? h.bucket
  lookup := by rw [hq.lookupExaminations, hq.examinations]; exact h.lookup
  length_le := hq.lookupExaminations ▸ h.length_le
  slots := h.slots.stable hc

/-- One more candidate that does not match. -/
theorem SearchMissed.next {s : State Op Blk σ π} {op : Op} {key : HashCode} {n e : ℕ}
    {entry : CacheEntry Op π} {verdict : Verdict} (h : SearchMissed s op key n)
    (hb : (s.bucket key)[n]? = some e) (he : s.cache.arena[e]? = some entry)
    (hop : entry.op ≠ op) (hv : verdict.isMatch = false) :
    SearchMissed (s.note (.examined op key n verdict)) op key (n + 1) where
  searchKey := h.searchKey
  examined := by
    simp only [State.note, examinations, if_pos]
    exact h.examined.snoc hv
  le := (List.getElem?_eq_some_iff.mp hb).1
  lookup := by
    simp only [State.note, examinations, lookupExaminations, if_pos]
    exact h.lookup.trans (List.prefix_append _ _)
  ops m e' entry' hm hb' he' := by
    rcases Nat.lt_succ_iff_lt_or_eq.mp hm with hm | rfl
    · exact h.ops m e' entry' hm hb' he'
    · obtain rfl : e = e' := by simpa using hb.symm.trans hb'
      obtain rfl : entry = entry' := by simpa using he.symm.trans he'
      exact hop

/-- A candidate that matches. -/
theorem SearchMissed.found {P : Program Op Blk} {s : State Op Blk σ π} {op : Op} {key : HashCode}
    {n e : ℕ} {entry : CacheEntry Op π} {verdict : Verdict} (h : SearchMissed s op key n)
    (hb : (s.bucket key)[n]? = some e) (he : s.cache.arena[e]? = some entry)
    (hl : entry.results.length = P.numResults op) (hv : verdict.isMatch = true) :
    SearchFound P (s.note (.examined op key n verdict)) op key n e where
  searchKey := h.searchKey
  examined := by
    simp only [State.note, examinations, if_pos]
    exact ⟨_, verdict, rfl, h.examined, hv⟩
  bucket := hb
  lookup := by
    simp only [State.note, examinations, lookupExaminations, if_pos]
    exact h.lookup.trans (List.prefix_append _ _)
  length_le := by
    have hlen := congrArg List.length h.examined.1
    rw [List.length_map, List.length_range] at hlen
    exact hlen ▸ h.lookup.length_le
  slots := ⟨entry, he, hl⟩

/-! ## The theory -/

variable [DecidableEq Blk]

/-- What the cache and its searches keep under arbitrary models.  The run never stops at the bounds
of `compute` and `findEquivalent`, nor at an index out of range. -/
def cacheTheory (P : Program Op Blk) : Theory Op Blk σ π where
  contract := ⟨fun _ => True, CacheGuar P, fun x => x ≠ .outOfFuel ∧ x ≠ .outOfRange⟩
  Inv s := CacheInv P s ∧ AllFilled s
  Rel s s' := s'.engine.active = s.engine.active ∧ ∀ op ∈ s.engine.active, Quiet op s.log s'.log
  Own op s s' := s'.engine.active = s.engine.active ∧
    ∀ o ∈ s.engine.active, o ≠ op → Quiet o s.log s'.log
  Pre _ _ := True
  Ans _ _ _ := True
  Within s op := op ∈ s.engine.active
  Uncached s op := searchKey op s.log = none
  Key _ _ _ := True
  Missed := SearchMissed
  Compared _ _ _ _ := True
  Found := SearchFound P
  Kept := HasSlots P
  Ready s op
    | none => True
    | some ⟨key, none, n⟩ => SearchMissed s op key n
    | some ⟨_, some e, _⟩ => HasSlots P s op e
  Results _ _ _ := True
  Out _ _ _ _ := True

section Writes

variable {P : Program Op Blk} {s t : State Op Blk σ π}

/-- A write that leaves the cache alone and does not belong to a search. -/
theorem cacheTheory_allows {e : Event Op Blk π} (hs : CacheInv P s ∧ AllFilled s)
    (hc : t.cache = s.cache) (hm : ∀ v a, t.memo v = some a → a.isCompleted = true)
    (hl : t.log = e :: s.log) (hse : e.searcher = none) (he : e.isSearch = false)
    (ha : t.engine.active = s.engine.active) : (cacheTheory P).Allows s t := by
  intro _
  have hinv := hs.1.of_eq hc hm
  have hfill := hs.2.of_eq hc
  refine ⟨⟨hinv, hfill.entriesFilled, .of_head ?_⟩, ⟨hinv, hfill⟩, ha, fun op _ => ?_⟩
  · rw [hl]
    rintro _ ⟨⟩
    exact he
  · rw [hl]
    exact Quiet.cons (by simp [hse]) _

/-- An event of the searches for `op`. -/
theorem cacheTheory_allowsOwn {op : Op} {e : Event Op Blk π} (hs : CacheInv P s ∧ AllFilled s)
    (hw : op ∈ s.engine.active) (hse : e.searcher = some op) (hg : SearchInv P (s.note e))
    {Q : Prop} (hQ : Q) : (cacheTheory P).AllowsOwn op s (s.note e) Q := by
  intro _
  have hinv : CacheInv P (s.note e) := hs.1.of_eq rfl hs.1.memo
  have hfill : AllFilled (s.note e) := hs.2.of_eq rfl
  refine ⟨⟨hinv, hfill.entriesFilled, hg⟩, ⟨hinv, hfill⟩, ⟨rfl, fun o _ ho => ?_⟩, hw, hQ⟩
  exact Quiet.cons (by simpa [hse] using fun h : op = o => ho h.symm) _

omit [DecidableEq Blk] in
/-- The invariant of searches after a candidate was examined. -/
theorem searchInv_examined {op : Op} {key : HashCode} {n e : ℕ} {entry : CacheEntry Op π}
    {verdict : Verdict} (h : SearchMissed s op key n) (hb : (s.bucket key)[n]? = some e)
    (he : s.cache.arena[e]? = some entry) (hown : verdict = .own ↔ entry.op = op)
    (hshape : verdict = .otherShape ↔
      entry.op ≠ op ∧ entry.results.length ≠ P.numResults op) :
    SearchInv P (s.note (.examined op key n verdict)) where
  examined op' key' n' verdict' heq := by
    simp only [State.note, List.head?_cons, Option.some.injEq, Event.examined.injEq] at heq
    obtain ⟨rfl, rfl, rfl, rfl⟩ := heq
    exact ⟨h.searchKey, e, entry, hb, he, hown, hshape⟩
  evaluating _ _ heq := by simp [State.note] at heq
  appended _ _ _ heq := by simp [State.note] at heq
  reused _ _ _ _ heq := by simp [State.note] at heq

/-- The invariant of searches when `op` is about to be evaluated. -/
theorem searchInv_evaluating {op : Op} {idx : ℕ} {cached : Option CacheLookup}
    (h : (cacheTheory (σ := σ) (π := π) P).Looked s op idx cached) :
    SearchInv P ((s.charge.note .charged).note (.evaluating op)) where
  examined _ _ _ _ heq := by simp [State.note] at heq
  evaluating op' key' heq hkey := by
    simp only [State.note, List.head?_cons, Option.some.injEq, Event.evaluating.injEq] at heq
    subst heq
    simp only [State.note, State.charge, searchKey] at hkey
    simp only [State.note, State.charge, lookupExaminations, examinations, if_pos]
    rcases cached with _ | ⟨key, _ | e, n⟩
    · rw [show searchKey op s.log = none from h] at hkey
      simp at hkey
    · obtain ⟨hmiss, hend⟩ := h
      have hmiss : SearchMissed s op key n := hmiss
      obtain rfl : key = key' := by simpa using hmiss.searchKey.symm.trans hkey
      obtain rfl : n = (s.bucket key).length :=
        le_antisymm hmiss.le (List.getElem?_eq_none_iff.mp hend)
      exact Or.inl hmiss.examined
    · exact Or.inr ⟨n, (show SearchFound P s op key n e from h.1).examined⟩
  appended _ _ _ heq := by simp [State.note] at heq
  reused _ _ _ _ heq := by simp [State.note] at heq

/-- Filling a slot of an entry with what the cache's allocator retains. -/
theorem CacheInv.fillSlot {mem : Malloc} {e idx : ℕ} {v : EvalValue π} (h : CacheInv P s) :
    CacheInv P (s.fillSlot e idx (retain mem .cache s.heap s.cache.copies v)) := by
  have hret : (_ ∨ (retain mem .cache s.heap s.cache.copies v).value.owner = .cache) ∧ _ :=
    retain_owner mem h.copies
  obtain ⟨hval, hcopies⟩ := hret
  constructor
  · intro key n e' hb
    simpa [State.fillSlot] using h.bucket_lt key n e' hb
  · intro key n m e₁ e₂ entry₁ entry₂ hn hm he₁ he₂ hop
    obtain ⟨entry₁', he₁', hop₁, -⟩ := State.fillSlot_arena he₁
    obtain ⟨entry₂', he₂', hop₂, -⟩ := State.fillSlot_arena he₂
    exact h.bucket_ops key n m e₁ e₂ entry₁' entry₂' hn hm he₁' he₂'
      (hop₁.symm.trans (hop.trans hop₂))
  · intro e' entry' he'
    obtain ⟨entry, he, hop, hlen, -⟩ := State.fillSlot_arena he'
    rw [hlen, hop]
    exact h.slots e' entry he
  · intro e' entry' i a he' hi
    obtain ⟨entry, he, -, -, hslot, -⟩ := State.fillSlot_arena he'
    rcases hslot i a hi with hi | ⟨-, -, rfl⟩
    · exact h.known e' entry i a he hi
    · exact ⟨_, rfl, hval.elim id id⟩
  · exact hcopies
  · exact h.memo

/-- What holds between two slots of the loop of `fill`, when the slots up to `i` are done: the entry
`e` has a filled slot, or it has just been appended and there is a known answer left for it. -/
structure Filling (P : Program Op Blk) (l : List (Answer π)) (e : ℕ) (s₀ : State Op Blk σ π)
    (i : ℕ) (s : State Op Blk σ π) : Prop where
  inv : CacheInv P s
  active : s.engine.active = s₀.engine.active
  quiet : ∀ op ∈ s₀.engine.active, Quiet op s₀.log s.log
  others : ∀ (e' : ℕ) (entry : CacheEntry Op π), e' ≠ e → s.cache.arena[e']? = some entry →
    entry.isFilled
  entry : ∃ entry, s.cache.arena[e]? = some entry ∧ entry.results.length = l.length ∧
    (entry.isFilled ∨ (∃ op key, s.log.head? = some (.appended op key e)) ∧
      ∃ (j : ℕ) (v : EvalValue π), i ≤ j ∧ l[j]? = some (.known v))

theorem Filling.guar {l : List (Answer π)} {e i : ℕ} {s₀ : State Op Blk σ π}
    (h : Filling P l e s₀ i s) (hs : SearchInv P s) : CacheGuar P s := by
  refine ⟨h.inv, fun e' entry' he' => ?_, hs⟩
  by_cases hee : e' = e
  · subst hee
    obtain ⟨entry, he, -, hfill⟩ := h.entry
    obtain rfl : entry = entry' := by simpa [he] using he'
    exact hfill.imp_right And.left
  · exact Or.inl (h.others e' entry' hee he')

variable {E : Setup Op Blk σ π}

/-- `fill` keeps the invariants, and leaves no entry without a filled slot. -/
theorem cacheTheory_fill {l : List (Answer π)} {e : ℕ} (hs : Filling P l e s 0 s) :
    wp (cacheTheory P).contract (fill E e l) s fun _ t =>
      (CacheInv P t ∧ AllFilled t) ∧ (cacheTheory P).Rel s t := by
  refine wp_bind (wp_mono (wp_fillSlots (J := Filling P l e s) (fun j a t hj ht => ?_) hs) ?_)
  · rw [Nat.zero_add] at ht ⊢
    obtain ⟨entry, he, hlen, hfill⟩ := ht.entry
    have hj' : j < l.length := (List.getElem?_eq_some_iff.mp hj).1
    refine wp_fillSlot (fun hx => ?_) (fun ha => ?_) (fun ent b he' hb => ?_)
      (fun ent v ha he' hb => ?_)
    · have := hx entry he
      omega
    · refine ⟨ht.inv, ht.active, ht.quiet, ht.others, entry, he, hlen, hfill.imp_right ?_⟩
      rintro ⟨happ, i, v, hi, hv⟩
      refine ⟨happ, i, v, Nat.lt_of_le_of_ne hi ?_, hv⟩
      rintro rfl
      obtain rfl : a = .known v := by simpa [hj] using hv
      simp [Answer.isKnown] at ha
    · obtain rfl : entry = ent := by simpa [he] using he'
      exact ⟨ht.inv, ht.active, ht.quiet, ht.others, entry, he, hlen, Or.inl ⟨j, b, hb⟩⟩
    · obtain rfl : entry = ent := by simpa [he] using he'
      intro r u _
      have hcont : Continues t u := Continues.fillSlot E.mem v he hb
      have hext : ∀ (e' : ℕ) (entry' : CacheEntry Op π), u.cache.arena[e']? = some entry' →
          ∃ ent, t.cache.arena[e']? = some ent ∧ ent.Extends entry' := by
        intro e' entry' he'
        obtain ⟨ent, hent, -⟩ := State.fillSlot_arena he'
        obtain ⟨entry'', he'', hx⟩ := hcont.cache.arena e' ent hent
        obtain rfl : entry'' = entry' := by simpa using he''.symm.trans he'
        exact ⟨ent, hent, hx⟩
      obtain ⟨entry', he'', hx⟩ := hcont.cache.arena e entry he
      have hnew : entry'.isFilled := by
        obtain ⟨ent, hent, -, -, -, hfilled⟩ := State.fillSlot_arena he''
        obtain rfl : entry = ent := by simpa [he] using hent
        exact ⟨j, _, hfilled rfl (hlen ▸ hj')⟩
      have hu : Filling P l e s (j + 1) u := by
        refine ⟨ht.inv.fillSlot.of_eq rfl ht.inv.memo, ht.active, fun op hop => ?_,
          fun e' ent hne hent => ?_, entry', he'', hx.length.trans hlen, Or.inl hnew⟩
        · exact (ht.quiet op hop).trans (Quiet.cons (by simp [Event.searcher]) _)
        · obtain ⟨ent₀, hent₀, hx'⟩ := hext e' ent hent
          exact (ht.others e' ent₀ hne hent₀).extends hx'
      refine ⟨hu.guar (.of_head ?_), hu⟩
      rintro _ ⟨⟩
      rfl
  · intro _ t ht
    have hfilled : AllFilled t := by
      intro e' entry' he'
      by_cases hee : e' = e
      · subst hee
        obtain ⟨entry, he, -, hfill⟩ := ht.entry
        obtain rfl : entry = entry' := by simpa [he] using he'
        refine hfill.resolve_right ?_
        rintro ⟨-, j, v, hj, hv⟩
        have := (List.getElem?_eq_some_iff.mp hv).1
        omega
      · exact ht.others e' entry' hee he'
    refine wp_record fun hr => ?_
    obtain ⟨hg, hi, hrel⟩ := cacheTheory_allows (t := t.note (.stored e)) ⟨ht.inv, hfilled⟩ rfl
      ht.inv.memo rfl rfl rfl rfl trivial
    exact ⟨hg, hi, hrel.1.trans ht.active, fun op hop =>
      (ht.quiet op hop).trans (hrel.2 op (ht.active ▸ hop))⟩

/-- An entry for `op` is appended to a bucket without one. -/
theorem CacheInv.append {op : Op} {key : HashCode} {slots : ℕ} (h : CacheInv P s)
    (hops : ∀ (m e : ℕ) (entry : CacheEntry Op π), (s.bucket key)[m]? = some e →
      s.cache.arena[e]? = some entry → entry.op ≠ op)
    (hslots : slots = P.numResults op) : CacheInv P (s.append op key slots) := by
  constructor
  · intro key' m e hm
    have hlen : (s.append op key slots).cache.arena.length = s.cache.arena.length + 1 := by
      simp [State.append]
    rw [hlen]
    rcases State.append_bucket hm with hm | ⟨-, -, rfl⟩
    · exact Nat.lt_succ_of_lt (h.bucket_lt key' m e hm)
    · exact Nat.lt_succ_self _
  · -- An old entry is no entry of `op`, and no old position of a bucket is the new one.
    have old : ∀ key' (m e : ℕ) (entry : CacheEntry Op π), (s.bucket key')[m]? = some e →
        (s.append op key slots).cache.arena[e]? = some entry → s.cache.arena[e]? = some entry := by
      intro key' m e entry hm he
      rcases State.append_arena he with he | ⟨rfl, -⟩
      · exact he
      · exact absurd (h.bucket_lt key' m _ hm) (lt_irrefl _)
    have new : ∀ (e : ℕ) (entry : CacheEntry Op π), e = s.cache.arena.length →
        (s.append op key slots).cache.arena[e]? = some entry → entry.op = op := by
      rintro _ entry rfl he
      rcases State.append_arena he with he | ⟨-, rfl⟩
      · simp at he
      · rfl
    intro key' m m' e e' entry entry' hm hm' he he' hop
    rcases State.append_bucket hm with h₁ | ⟨hkey, hpos, hlast⟩ <;>
      rcases State.append_bucket hm' with h₁' | ⟨hkey', hpos', hlast'⟩
    · exact h.bucket_ops key' m m' e e' entry entry' h₁ h₁' (old _ _ _ _ h₁ he)
        (old _ _ _ _ h₁' he') hop
    · exact absurd (hop.trans (new e' entry' hlast' he'))
        (hops m e entry (hkey' ▸ h₁) (old _ _ _ _ h₁ he))
    · exact absurd (hop.symm.trans (new e entry hlast he))
        (hops m' e' entry' (hkey ▸ h₁') (old _ _ _ _ h₁' he'))
    · rw [hpos, hpos']
  · intro e entry he
    rcases State.append_arena he with he | ⟨-, rfl⟩
    · exact h.slots e entry he
    · simp [hslots]
  · intro e entry i a he hi
    rcases State.append_arena he with he | ⟨-, rfl⟩
    · exact h.known e entry i a he hi
    · simp [List.getElem?_replicate] at hi
  · exact h.copies
  · exact h.memo

/-- Appending an entry to a bucket that was searched to its end. -/
theorem cacheTheory_append {op : Op} {key : HashCode} {n : ℕ} {l : List (Answer π)}
    (hs : CacheInv P s ∧ AllFilled s) (hmiss : SearchMissed s op key n)
    (hend : (s.bucket key)[n]? = none) (hlen : l.length = E.program.numResults op)
    (hP : E.program = P) (hk : l.any Answer.isKnown = true) :
    wp (cacheTheory P).contract (appendEntry E op key l) s fun e t =>
      (CacheInv P t ∧ AllFilled t) ∧ (cacheTheory P).Rel s t ∧ HasSlots P t op e := by
  subst hP
  obtain rfl : n = (s.bucket key).length :=
    le_antisymm hmiss.le (List.getElem?_eq_none_iff.mp hend)
  refine wp_bind (wp_read (wp_bind (wp_record fun _ => ?_)))
  generalize ht : (s.append op key l.length).note (.appended op key s.cache.arena.length) = t
  have hinv : CacheInv E.program t := by
    subst ht
    refine (hs.1.append (fun m e entry hm he => ?_) hlen).of_eq rfl hs.1.memo
    exact hmiss.ops m e entry (List.getElem?_eq_some_iff.mp hm).1 hm he
  have hent : t.cache.arena[s.cache.arena.length]? = some ⟨op, List.replicate l.length none⟩ := by
    subst ht
    simp [State.note, State.append]
  have hfill : Filling E.program l s.cache.arena.length t 0 t := by
    refine ⟨hinv, rfl, fun o _ => .refl o _, fun e entry hne he => ?_, _, hent, by simp, Or.inr ?_⟩
    · subst ht
      rcases State.append_arena he with he | ⟨rfl, -⟩
      · exact hs.2 e entry he
      · exact absurd rfl hne
    · refine ⟨⟨op, key, by subst ht; rfl⟩, ?_⟩
      obtain ⟨a, ha, hknown⟩ := List.any_eq_true.mp hk
      obtain ⟨v, rfl⟩ := Answer.isKnown_iff.mp hknown
      obtain ⟨j, hj⟩ := List.getElem?_of_mem ha
      exact ⟨j, v, Nat.zero_le j, hj⟩
  have hsearch : SearchInv E.program t := by
    subst ht
    constructor
    · intro _ _ _ _ heq
      simp [State.note] at heq
    · intro _ _ heq
      simp [State.note] at heq
    · intro op' key' e' heq
      simp only [State.note, List.head?_cons, Option.some.injEq, Event.appended.injEq] at heq
      obtain ⟨rfl, rfl, rfl⟩ := heq
      refine ⟨hmiss.searchKey, ⟨s.bucket key, ?_, hmiss.examined⟩, hmiss.lookup⟩
      simp [State.note, State.append, State.bucket, EvalCache.bucket, AList.lookup_insert]
    · intro _ _ _ _ heq
      simp [State.note] at heq
  have hquiet : ∀ o, Quiet o s.log t.log := by
    subst ht
    exact fun o => Quiet.cons (by simp [Event.searcher]) _
  have hact : t.engine.active = s.engine.active := by subst ht; rfl
  refine ⟨hfill.guar hsearch, wp_bind ?_⟩
  refine wp_mono (wp_stepsAt Continues.refl (fun _ _ _ => Continues.trans)
    (continuing_fill _ l t) (cacheTheory_fill hfill)) fun _ u hu => ?_
  obtain ⟨⟨hiu, hact', hq'⟩, hc⟩ := hu
  refine wp_pure ⟨hiu, ⟨hact'.trans hact, fun o ho => (hquiet o).trans (hq' o (hact ▸ ho))⟩, ?_⟩
  exact HasSlots.stable ⟨_, hent, by simp [hlen]⟩ hc

/-- What a method writes itself touches neither entries nor searches. -/
theorem cacheTheory_scopeWrite (hs : CacheInv P s ∧ AllFilled s) (h : ScopeWrite E s t) :
    (cacheTheory P).Allows s t := by
  cases h with
  | unbound frame h =>
    refine cacheTheory_allows hs rfl (fun v a hm => ?_) rfl rfl rfl rfl
    simp only [State.memo, State.note, State.unbind, DenseMap.lookup_eraseAll] at hm
    split at hm
    · simp at hm
    · exact hs.1.memo v a hm
  | _ => exact cacheTheory_allows hs rfl hs.1.memo rfl rfl rfl rfl

/-- A nested query of a method keeps what the theory says, and so does everything else it may do. -/
theorem cacheTheory_runScope {ask : Value Op Blk → EngineM Op Blk σ π (Answer π)}
    (ha : (cacheTheory P).Asks ask s.engine.active) (hs : CacheInv P s ∧ AllFilled s) {α : Type}
    (p : ScopeM Op Blk σ π α) :
    wp (cacheTheory P).contract (runScope E ask p) s fun _ t =>
      (CacheInv P t ∧ AllFilled t) ∧ (cacheTheory P).Rel s t := by
  refine Theory.wp_runScope (T := cacheTheory P) (fun _ => ⟨rfl, fun o _ => .refl o _⟩)
    (fun a b c h h' => ⟨h'.1.trans h.1, fun o ho => (h.2 o ho).trans (h'.2 o (h.1 ▸ ho))⟩)
    (fun _ _ h => h.1) (fun _ _ _ => trivial)
      ?_ (fun t u ht hu => cacheTheory_scopeWrite ht hu) ha hs p
  rintro _ (rfl | rfl | rfl | rfl) <;> simp [cacheTheory]

end Writes

section Places

variable {E : Setup Op Blk σ π} {s s' : State Op Blk σ π} {op : Op} {i : ℕ}

/-- Memoizing a completed answer. -/
theorem CacheInv.memoize {P : Program Op Blk} {s : State Op Blk σ π} {v : Value Op Blk}
    {a : Answer π} (h : CacheInv P s) (ha : a.isCompleted = true) (u : Value Op Blk) (b : Answer π)
    (hm : (s.memoize P v a).memo u = some b) : b.isCompleted = true := by
  simp only [State.memo, State.memoize, DenseMap.lookup_insert'] at hm
  split at hm
  · exact Option.some.inj hm ▸ ha
  · exact h.memo u b hm

theorem cacheTheory_constant (hs : CacheInv E.program s ∧ AllFilled s) :
    wp (cacheTheory E.program).contract (evaluateConstant E op) s fun _ t =>
      (CacheInv E.program t ∧ AllFilled t) ∧ (cacheTheory E.program).Rel s t := by
  refine Theory.wp_evaluateConstant (T := cacheTheory E.program) hs ⟨rfl, fun o _ => .refl o _⟩
    (fun attr type payload _ => ?_) fun t ht => cacheTheory_scopeWrite hs ht
  have hinv : CacheInv E.program ((s.storeConstant (attr, type)
      (payload.map (newStorage E.mem s.heap .cache))).note
      (.constantStored attr type (payload.map (newStorage E.mem s.heap .cache)))) :=
    ⟨hs.1.bucket_lt, hs.1.bucket_ops, hs.1.slots, hs.1.known, hs.1.copies, hs.1.memo⟩
  exact ⟨⟨hinv, AllFilled.entriesFilled hs.2, .of_head (by rintro _ ⟨⟩; rfl)⟩, ⟨hinv, hs.2⟩, rfl,
    fun o _ => Quiet.cons (by simp [Event.searcher]) _⟩

/-- Leaving an operation is no search of another one. -/
theorem cacheTheory_leave {a : Answer π} (hop : op ∉ s.engine.active)
    (hd : (cacheTheory E.program).Does op ((s.enter op).note (.entered op)) s') :
    (cacheTheory E.program).contract.guar ((s'.leave op).note (.left op)) ∧
      (cacheTheory E.program).Inv ((s'.leave op).note (.left op)) ∧
      (cacheTheory E.program).Rel s ((s'.leave op).note (.left op)) ∧
      (cacheTheory E.program).Ans ((s'.leave op).note (.left op)) (.result op i) a := by
  have hinv : CacheInv E.program ((s'.leave op).note (.left op)) :=
    hd.inv.1.of_eq rfl hd.inv.1.memo
  have hfill : AllFilled ((s'.leave op).note (.left op)) := hd.inv.2.of_eq rfl
  have hact : s'.engine.active = Insert.insert op s.engine.active := hd.own.1
  refine ⟨⟨hinv, hfill.entriesFilled, .of_head (by rintro _ ⟨⟩; rfl)⟩, ⟨hinv, hfill⟩,
    ⟨?_, fun o ho => ?_⟩, trivial⟩
  · simp [State.note, State.leave, hact, hop]
  · have hne : o ≠ op := fun h => hop (h ▸ ho)
    refine (Quiet.cons ?_ s.log).trans ((hd.own.2 o (Finset.mem_insert_of_mem ho) hne).trans
      (Quiet.cons (by simp [Event.searcher]) _))
    simpa [Event.searcher] using hne.symm

/-- The lookup has examined what it had to before the operation is evaluated. -/
theorem cacheTheory_charge {cached : Option CacheLookup} (hs : (cacheTheory E.program).Inv s)
    (hw : (cacheTheory E.program).Within s op) (hc : (cacheTheory E.program).Looked s op i cached) :
    (cacheTheory E.program).contract.guar (s.charge.note .charged) ∧
      (cacheTheory E.program).AllowsOwn op s ((s.charge.note .charged).note (.evaluating op))
        ((cacheTheory E.program).Ready ((s.charge.note .charged).note (.evaluating op)) op cached ∧
         (cacheTheory E.program).Running ((s.charge.note .charged).note (.evaluating op))
            op) := by
  have hi : CacheInv E.program (s.charge.note .charged) := hs.1.of_eq rfl hs.1.memo
  have hf : AllFilled (s.charge.note .charged) := hs.2.of_eq rfl
  refine ⟨⟨hi, hf.entriesFilled, .of_head (by rintro _ ⟨⟩; rfl)⟩, fun hr => ?_⟩
  obtain ⟨hg, hinv, hown, hwi, -⟩ := cacheTheory_allowsOwn ⟨hi, hf⟩ hw rfl
    (searchInv_evaluating hc) trivial hr
  refine ⟨hg, hinv, ⟨hown.1, fun o ho hne => (Quiet.cons (by simp [Event.searcher]) _).trans
    (hown.2 o ho hne)⟩, hwi, ?_, trivial⟩
  rcases cached with _ | ⟨key, _ | e, n⟩
  · trivial
  · obtain ⟨hmiss, -⟩ := hc
    exact ⟨hmiss.searchKey, hmiss.examined, hmiss.le, by
      simp [State.note, State.charge, examinations, lookupExaminations], hmiss.ops⟩
  · exact hc.1.slots

/-- An entry that is reused was found. -/
theorem cacheTheory_reuse {key : HashCode} {n e : ℕ} (hs : (cacheTheory E.program).Inv s)
    (hf : (cacheTheory E.program).Found s op key n e) :
    (cacheTheory E.program).Allows s (s.note (.reused op key n e)) := by
  intro _
  have hinv : CacheInv E.program (s.note (.reused op key n e)) := hs.1.of_eq rfl hs.1.memo
  have hfill : AllFilled (s.note (.reused op key n e)) := hs.2.of_eq rfl
  refine ⟨⟨hinv, hfill.entriesFilled, ?_⟩, ⟨hinv, hfill⟩, rfl, fun o _ => Quiet.cons (by
    simp [Event.searcher]) _⟩
  constructor
  · intro _ _ _ _ heq
    simp [State.note] at heq
  · intro _ _ heq
    simp [State.note] at heq
  · intro _ _ _ heq
    simp [State.note] at heq
  · intro op' key' n' e' heq
    simp only [State.note, List.head?_cons, Option.some.injEq, Event.reused.injEq] at heq
    obtain ⟨rfl, rfl, rfl, rfl⟩ := heq
    exact ⟨hf.searchKey, hf.bucket, hf.examined, hf.length_le, hf.lookup⟩

end Places

/-- **The theory of the cache holds for arbitrary models.** -/
theorem cacheTheory_sound [Fintype Op] (E : Setup Op Blk σ π) :
    (cacheTheory E.program).Sound E where
  rel_refl s := ⟨rfl, fun o _ => .refl o _⟩
  rel_trans a b c h h' := ⟨h'.1.trans h.1, fun o ho => (h.2 o ho).trans (h'.2 o (h.1 ▸ ho))⟩
  own_of_rel op s s' h := ⟨h.1, fun o ho _ => h.2 o ho⟩
  own_trans op a b c h h' :=
    ⟨h'.1.trans h.1, fun o ho hne => (h.2 o ho hne).trans (h'.2 o (h.1 ▸ ho) hne)⟩
  own_active op s s' h := h.1
  within_stable s s' op hm hw := by
    change op ∈ s'.engine.active
    rwa [hm.rel.1]
  unevaluated_stable _ _ _ _ _ _ := trivial
  running_stable _ _ _ _ _ _ := trivial
  missed_stable s s' op key n hm hw h := h.stable hm.start.1 hm.continues (hm.rel.2 op hw)
  found_stable s s' op key n e hm hw h := h.stable hm.continues (hm.rel.2 op hw)
  kept_stable s s' op e hm _ h := h.stable hm.continues
  results_stable _ _ _ _ _ _ _ := trivial
  unanswered _ _ _ _ _ := trivial
  memo_hit _ _ _ _ _ _ := trivial
  memo_add s s' v a _ hm _ ha _ :=
    cacheTheory_allows hm.inv rfl (hm.inv.1.memoize ha) rfl rfl rfl rfl
  ans_memoized _ _ _ _ _ := trivial
  arg _ _ _ _ _ := trivial
  invalid _ _ _ _ _ _ := by simp [cacheTheory]
  constant s op i _ hs _ _ := wp_mono (cacheTheory_constant hs) fun _ t ht => ⟨ht.1, ht.2, trivial⟩
  cycle _ _ _ _ _ _ _ _ _ := trivial
  enter s op i model _ hs _ _ _ _ _ := by
    have hinv : CacheInv E.program ((s.enter op).note (.entered op)) := hs.1.of_eq rfl hs.1.memo
    have hfill : AllFilled ((s.enter op).note (.entered op)) := hs.2.of_eq rfl
    exact ⟨⟨hinv, hfill.entriesFilled, .of_head (by rintro _ ⟨⟩; rfl)⟩, ⟨hinv, hfill⟩,
      Finset.mem_insert_self op _⟩
  leave _ _ _ _ _ _ _ _ hop hd _ _ := cacheTheory_leave hop hd
  cacheable s op model ask _ ha hs hw hlog :=
    wp_mono (cacheTheory_runScope ha hs _) fun r t ht =>
      ⟨ht.1, ht.2, fun _ => (ht.2.2 op hw).searchKey.trans (by
        obtain ⟨log, hl⟩ := List.head?_eq_some_iff.mp hlog
        simp [hl, searchKey]), fun _ => trivial, fun _ _ => trivial, fun _ _ _ _ => trivial⟩
  hash s op model ask _ ha hs hw _ _ :=
    wp_mono (cacheTheory_runScope ha hs _) fun r t ht =>
      ⟨ht.1, ht.2, fun _ _ => trivial, fun _ _ _ _ => trivial⟩
  unevaluated_search _ _ _ _ _ := trivial
  searching s op key hs hw _ := by
    refine cacheTheory_allowsOwn hs hw rfl (.of_head (by rintro _ ⟨⟩; rfl)) ?_
    refine ⟨by simp [State.note, searchKey], ?_, Nat.zero_le _, ?_, fun m e entry hm => by omega⟩
    · simp only [State.note, examinations, if_pos]
      exact MissedAll.nil
    · simp [State.note, examinations, lookupExaminations]
  candidate_range s key n e hs hb he := absurd (hs.1.bucket_lt key n e hb) (not_lt.mpr he)
  scan_length s op key n hs hn hlt := by
    have h₁ := hs.1.bucket_length_le key
    have h₂ := hn.le
    omega
  own s op key n e entry hs hw hn hb he hop := by
    refine cacheTheory_allowsOwn hs hw rfl
      (searchInv_examined hn hb he (by simp [hop]) (by simp [hop]))
      (hn.found hb he ?_ rfl)
    rw [hs.1.slots e entry he, hop]
  shape s op key n e entry hs hw hn hb he hop hlen :=
    cacheTheory_allowsOwn hs hw rfl
      (searchInv_examined hn hb he (by simp [hop]) (by simp [hop, hlen]))
      (hn.next hb he hop rfl)
  equivalent s op key n e entry model ask _ ha hs _ _ _ _ _ _ :=
    wp_mono (cacheTheory_runScope ha hs _) fun r t ht => ⟨ht.1, ht.2, trivial⟩
  skipped s op key n e entry st hs hw hn hb he hop hlen _ :=
    cacheTheory_allowsOwn hs hw rfl (searchInv_examined hn hb he (by simp [hop]) (by simp [hlen]))
      (hn.next hb he hop rfl)
  different s op key n e entry hs hw hn hb he hop hlen _ :=
    cacheTheory_allowsOwn hs hw rfl (searchInv_examined hn hb he (by simp [hop]) (by simp [hlen]))
      (hn.next hb he hop rfl)
  matching s op key n e entry hs hw hn hb he hop hlen _ :=
    cacheTheory_allowsOwn hs hw rfl (searchInv_examined hn hb he (by simp [hop]) (by simp [hlen]))
      (hn.found hb he hlen rfl)
  exhausted _ _ _ _ _ _ _ _ _ _ := trivial
  charge _ _ _ _ hs hw _ _ hc _ _ := cacheTheory_charge hs hw hc
  evaluates s op model ask cached _ ha hs hw hc := by
    refine wp_mono (wp_stepsAt Continues.refl (fun _ _ _ => Continues.trans)
      (continuing_runScope ha.continuing _ s) (cacheTheory_runScope ha hs _)) fun l t ht => ?_
    refine ⟨ht.1.1, ht.1.2, trivial, ?_⟩
    rcases cached with _ | ⟨key, _ | e, n⟩
    · trivial
    · exact SearchMissed.stable hc hs.1 ht.2 (ht.1.2.2 op hw)
    · exact HasSlots.stable hc ht.2
  count _ _ _ _ _ _ _ := by simp [cacheTheory]
  evaluated s op l cached hs hw _ hc _ _ hr := by
    have hallow : (cacheTheory E.program).Allows s (s.note (.evaluated op l)) :=
      cacheTheory_allows hs rfl hs.1.memo rfl rfl rfl rfl
    obtain ⟨hg, hi, hrel⟩ := hallow hr
    refine ⟨hg, hi, ⟨hrel.1, fun o ho _ => hrel.2 o ho⟩, hw, ?_, trivial⟩
    rcases cached with _ | ⟨key, _ | e, n⟩
    · trivial
    · exact SearchMissed.stable hc hs.1 (.noted (by simp) s) (hrel.2 op hw)
    · exact HasSlots.stable hc (.noted (by simp) s)
  evaluated_stable _ _ _ _ _ _ _ := trivial
  ready_stable s s' op cached hm hw hc := by
    rcases cached with _ | ⟨key, _ | e, n⟩
    · trivial
    · exact SearchMissed.stable hc hm.start.1 hm.continues (hm.rel.2 op hw)
    · exact HasSlots.stable hc hm.continues
  ready s op cached _ _ _ _ hc := by
    rcases cached with ⟨key, _ | e, n⟩
    · exact hc
    · exact hc
  reuse _ _ _ _ _ _ hs _ hf _ := cacheTheory_reuse hs hf
  fill s₀ s op e l hs _ hk _ hlen _ _ _ := by
    obtain ⟨entry, he, hl⟩ := hk
    exact cacheTheory_fill ⟨hs.1, rfl, fun o _ => .refl o _, fun e' ent _ hent => hs.2 e' ent hent,
      entry, he, hl.trans hlen.symm, Or.inl (hs.2 e entry he)⟩
  append s₀ s op key n l hs hw hn hend _ hlen hk _ _ := by
    refine wp_mono (cacheTheory_append hs hn hend hlen rfl hk) ?_
    rintro e t ⟨hi, hrel, hslots⟩
    refine ⟨hi, ⟨hrel.1, fun o ho _ => hrel.2 o ho⟩, ?_, hslots⟩
    change op ∈ t.engine.active
    rwa [hrel.1]
  kept s op key n e _ _ hf := hf.slots
  kept_range s op e i _ hk hi hx := by
    obtain ⟨entry, he, hl⟩ := hk
    have := hx entry he
    omega
  kept_slot _ _ _ _ _ _ _ _ _ _ _ := trivial
  unstored _ _ _ _ _ _ _ _ _ _ := trivial
  unstored_stable _ _ _ _ _ _ _ _ := trivial
  result _ _ _ _ _ _ _ _ _ _ := trivial
  memo_own s op i a hs _ _ _ ha _ := cacheTheory_allows hs rfl (hs.1.memoize ha) rfl rfl rfl rfl
  hit _ _ _ _ _ _ _ _ _ _ _ _ _ _ := trivial
  finish _ _ _ _ _ _ _ _ _ _ _ := trivial

/-! ## Every query, every history -/

section Histories

variable [Fintype Op] {E : Setup Op Blk σ π}

theorem cacheTheory_query {s : State Op Blk σ π} (hs : CacheInv E.program s ∧ AllFilled s)
    (engine budget : ℕ) (value : Value Op Blk) :
    wp (cacheTheory E.program).contract (query E engine budget value) s fun _ t =>
      CacheInv E.program t ∧ AllFilled t := by
  have guar : ∀ {t : State Op Blk σ π} {e : Event Op Blk π}, CacheInv E.program t ∧ AllFilled t →
      t.log.head? = some e → e.isSearch = false → CacheGuar E.program t := by
    refine fun h hl he => ⟨h.1, h.2.entriesFilled, .of_head fun e' he' => ?_⟩
    obtain rfl := Option.some.inj (hl.symm.trans he')
    exact he
  refine wp_query (fun _ => by simp [cacheTheory]) fun _ => ?_
  have hbegin : CacheInv E.program
      ((s.beginQuery engine budget).note (.queryStarted engine budget value)) ∧ AllFilled
      ((s.beginQuery engine budget).note (.queryStarted engine budget value)) :=
    ⟨⟨hs.1.bucket_lt, hs.1.bucket_ops, hs.1.slots,
      hs.1.known, by simp [State.note, State.beginQuery],
      hs.1.memo⟩, hs.2⟩
  refine ⟨guar hbegin rfl rfl, ?_⟩
  refine wp_mono ((cacheTheory_sound E).wp_compute (Nat.lt_succ_self _) hbegin trivial
    trivial (by omega)) fun r t ht => ?_
  have hend : ∀ {u : State Op Blk σ π} (a : Answer π), CacheInv E.program u ∧ AllFilled u →
      CacheInv E.program (u.endQuery.note (.queryEnded engine value a)) ∧
        AllFilled (u.endQuery.note (.queryEnded engine value a)) := fun a hu =>
    ⟨hu.1.of_eq rfl (by simp [State.memo, State.note, State.endQuery]), hu.2.of_eq rfl⟩
  refine wp_handOut (fun _ => ?_) fun v _ => fun _ => ?_
  · exact ⟨fun _ => by simp [cacheTheory], fun _ _ => ⟨guar (hend _ ht.1) rfl rfl, hend _ ht.1⟩⟩
  · have hout : CacheInv E.program ((t.retainAnswer engine (retain E.mem (.answers engine) t.heap
        (t.answerCopies engine) v)).note (.handedOut v (retain E.mem (.answers engine) t.heap
        (t.answerCopies engine) v).value)) ∧ AllFilled ((t.retainAnswer engine (retain E.mem
        (.answers engine) t.heap (t.answerCopies engine) v)).note (.handedOut v (retain E.mem
        (.answers engine) t.heap (t.answerCopies engine) v).value)) :=
      ⟨ht.1.1.of_eq rfl ht.1.1.memo, ht.1.2.of_eq rfl⟩
    exact ⟨guar hout rfl rfl, fun _ => by simp [cacheTheory], fun _ _ =>
      ⟨guar (hend _ hout) rfl rfl, hend _ hout⟩⟩

/-- The invariants hold of all states of a history, and of the state it has led to. -/
theorem cacheTheory_past {past : List (State Op Blk σ π)} {s : State Op Blk σ π}
    (h : History E past s) :
    (CacheInv E.program s ∧ AllFilled s) ∧ ∀ t ∈ past, CacheGuar E.program t := by
  have hinit : ∀ w, CacheInv E.program (State.init w : State Op Blk σ π) ∧
      AllFilled (State.init w : State Op Blk σ π) := by
    intro w
    refine ⟨⟨?_, ?_, ?_, ?_, ?_, ?_⟩, ?_⟩ <;>
      simp [AllFilled, State.init, State.bucket, State.memo, Engine.idle, EvalCache.empty,
        EvalCache.bucket]
  have hclear : ∀ s : State Op Blk σ π, CacheInv E.program s ∧ AllFilled s →
      CacheInv E.program (s.clear.note .cleared) ∧ AllFilled (s.clear.note .cleared) := by
    intro s hs
    refine ⟨⟨?_, ?_, ?_, ?_, ?_, hs.1.memo⟩, ?_⟩ <;>
      simp [AllFilled, State.note, State.clear, State.bucket, EvalCache.empty, EvalCache.bucket]
  refine h.invariant (fun w => ⟨hinit w, (hinit w).1, (hinit w).2.entriesFilled,
    .of_head (by simp [State.init])⟩) (fun s engine budget value _ hs => ?_)
    (fun s hs => ⟨hclear s hs, (hclear s hs).1, (hclear s hs).2.entriesFilled,
      .of_head (by rintro _ ⟨⟩; rfl)⟩)
  obtain ⟨hg, hq, -⟩ := cacheTheory_query (E := E) hs engine budget value fun _ _ => trivial
  exact ⟨hg, fun r s' hr => hq r s' hr⟩

/-- The invariants hold of all states of a history and of all states of one more query. -/
theorem cacheTheory_history {past : List (State Op Blk σ π)} {s : State Op Blk σ π}
    (h : History E past s) (engine budget : ℕ) (value : Value Op Blk) :
    (∀ t ∈ past ++ (query E engine budget value s).visited, CacheGuar E.program t) ∧
      ∀ x, (query E engine budget value s).outcome = .error x → x ≠ .outOfFuel ∧
        x ≠ .outOfRange := by
  obtain ⟨hs, hpast⟩ := cacheTheory_past h
  obtain ⟨hg, -, hx⟩ := cacheTheory_query (E := E) hs engine budget value fun _ _ => trivial
  refine ⟨fun t ht => ?_, hx⟩
  rcases List.mem_append.mp ht with ht | ht
  · exact hpast t ht
  · exact hg t ht

/-- **The representation invariant of the cache.**  In every state any sequence of queries goes
through, positions of buckets and slots of entries exist, an entry has one slot for every result and
a filled one unless it was appended by the last write, filled slots hold known answers the cache
owns, and no signal is memoized.  Between two `clearCache` calls buckets grow by appending, and
filled slots stay as they are.  No entry or slot is read out of range. -/
theorem cache_representation {past : List (State Op Blk σ π)} {s : State Op Blk σ π}
    (h : History E past s) (engine budget : ℕ) (value : Value Op Blk) :
    (∀ t ∈ past ++ (query E engine budget value s).visited,
        CacheInv E.program t ∧ EntriesFilled t) ∧
      (past ++ (query E engine budget value s).visited).Pairwise Evolves ∧
      (query E engine budget value s).outcome ≠ .error .outOfRange := by
  obtain ⟨hg, hx⟩ := cacheTheory_history h engine budget value
  exact ⟨fun t ht =>
    ⟨(hg t ht).inv, (hg t ht).filled⟩, evolves_append (steps_query _ _ _) h.evolves,
    fun hr => (hx _ hr).2 rfl⟩

/-- An engine whose models query operands in every method. -/
abbrev reentrantSetup : Setup (Fin 10) (Fin 2) Unit Unit :=
  ⟨loopProgram, reentrantModels loopProgram (), .next⟩

theorem cache_representation_reentrant :
    (∀ t ∈ [State.init ()] ++ (query reentrantSetup 0 100 (.result 8 0) (State.init ())).visited,
        CacheInv loopProgram t ∧ EntriesFilled t) ∧
      ([State.init ()] ++
        (query reentrantSetup 0 100 (.result 8 0) (State.init ())).visited).Pairwise
        Evolves ∧
      (query reentrantSetup 0 100 (.result 8 0) (State.init ())).outcome ≠ .error .outOfRange :=
  cache_representation (.init ()) 0 100 (.result 8 0)

/-- **A search examines every candidate once.**  In every state any sequence of queries goes
through, the events of the searches are as `SearchInv` says. -/
theorem search_examines_once {past : List (State Op Blk σ π)} {s : State Op Blk σ π}
    (h : History E past s) (engine budget : ℕ) (value : Value Op Blk) :
    ∀ t ∈ past ++ (query E engine budget value s).visited, SearchInv E.program t := fun t ht =>
  ((cacheTheory_history h engine budget value).1 t ht).search

theorem search_examines_once_reentrant :
    ∃ t ∈ (query reentrantSetup 0 100 (.result 8 0) (State.init ())).visited, ∃ op key e,
      t.log.head? = some (.appended op key e) ∧ searchKey op t.log = some key ∧
        ∃ bucket, t.bucket key = bucket ++ [e] ∧
          MissedAll (examinations op t.log) bucket.length := by
  have happend : ((query reentrantSetup 0 100 (.result 8 0) (State.init ())).visited.any fun t =>
      t.log.head?.any Event.isAppended) = true := by decide +kernel
  obtain ⟨t, ht, hlog⟩ := List.any_eq_true.mp happend
  obtain ⟨e, he, hevent⟩ := (Option.any_eq_true _ _).mp hlog
  cases e <;> simp only [Event.isAppended, Bool.false_eq_true] at hevent
  next op key e =>
    obtain ⟨hkey, hbucket, -⟩ := (search_examines_once (.init ()) 0 100 (.result 8 0) t
      (List.mem_append_right _ ht)).appended op key e he
    exact ⟨t, ht, op, key, e, he, hkey, hbucket⟩

end Histories

end MlirInterpreter
