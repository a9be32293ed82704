import MlirInterpreter.Engine.CacheInvariant

/-!
# One complete evaluation in a query

The memo keeps `Engine::compute` from calling `evaluate` again for an operation whose answers are
complete.  Which calls there were is read off the log:

* `isEvaluating` and `hasCompleted` say whether a call of `evaluate` is running, and whether one has
  returned completed answers for all results, in the current query.
* `isBoundAround` says whether a block was bound around the operation.  Only then is a memoized
  answer ever erased: it belongs to a frame of an enclosing region (`MemoInv.frames`).

`evaluated_once` holds for arbitrary models, in every state of every history.
-/

set_option autoImplicit false

namespace MlirInterpreter

open Recorded

variable {Op Blk σ π : Type} [DecidableEq Op]

/-! ## The evaluations of a log -/

/-- A call of `evaluate` for `op` is running. -/
def isEvaluating (op : Op) : List (Event Op Blk π) → Bool
  | [] => false
  | .queryStarted .. :: _ => false
  | .evaluating o :: log => if o = op then true else isEvaluating op log
  | .evaluated o _ :: log => if o = op then false else isEvaluating op log
  | _ :: log => isEvaluating op log

/-- A call of `evaluate` for `op` has returned completed answers for all results in the current
query. -/
def hasCompleted (op : Op) : List (Event Op Blk π) → Bool
  | [] => false
  | .queryStarted .. :: _ => false
  | .evaluated o l :: log => if o = op ∧ l.all Answer.isCompleted then true else hasCompleted op log
  | _ :: log => hasCompleted op log

/-- What `evaluate` has returned for `op` since it was entered. -/
def lastAnswers (op : Op) : List (Event Op Blk π) → Option (List (Answer π))
  | [] => none
  | .entered o :: log => if o = op then none else lastAnswers op log
  | .evaluated o l :: log => if o = op then some l else lastAnswers op log
  | _ :: log => lastAnswers op log

/-- The blocks bound in the current query. -/
def boundBlocks : List (Event Op Blk π) → List Blk
  | [] => []
  | .queryStarted .. :: _ => []
  | .bound block _ :: log => block :: boundBlocks log
  | _ :: log => boundBlocks log

/-- `op` is nested in a region of which a block was bound in the current query. -/
def isBoundAround (P : Program Op Blk) (op : Op) (log : List (Event Op Blk π)) : Bool :=
  (boundBlocks log).any fun block => (P.opRegion op).any (P.isAncestor (P.parentRegion block))

theorem isBoundAround_mono {P : Program Op Blk} {op : Op} {log log' : List (Event Op Blk π)}
    (h : boundBlocks log ⊆ boundBlocks log') (hb : isBoundAround P op log' = false) :
    isBoundAround P op log = false := by
  rw [isBoundAround, List.any_eq_false] at hb ⊢
  exact fun block hblock => hb block (h hblock)

/-- The operation whose evaluation an event is about. -/
def Event.evaluatee : Event Op Blk π → Option Op
  | .entered op => some op
  | .evaluating op => some op
  | .evaluated op _ => some op
  | _ => none

/-- Does the event start a query? -/
def Event.isStart : Event Op Blk π → Bool
  | .queryStarted .. => true
  | _ => false

omit [DecidableEq Op] in
theorem boundBlocks_cons {e : Event Op Blk π} (he : e.isStart = false)
    (log : List (Event Op Blk π)) :
    boundBlocks log ⊆ boundBlocks (e :: log) := by
  cases e with
  | queryStarted engine budget value => cases he
  | bound block args => exact List.subset_cons_self _ _
  | _ => exact List.Subset.refl _

/-- The calls of `evaluate` for `op` look the same in two logs. -/
structure SameCalls (op : Op) (log log' : List (Event Op Blk π)) : Prop where
  isEvaluating : isEvaluating op log' = isEvaluating op log
  hasCompleted : hasCompleted op log' = hasCompleted op log
  lastAnswers : lastAnswers op log' = lastAnswers op log

theorem SameCalls.refl (op : Op) (log : List (Event Op Blk π)) :
    SameCalls op log log := ⟨rfl, rfl, rfl⟩

theorem SameCalls.trans {op : Op} {a b c : List (Event Op Blk π)} (h : SameCalls op a b)
    (h' : SameCalls op b c) : SameCalls op a c :=
  ⟨h'.1.trans h.1, h'.2.trans h.2, h'.3.trans h.3⟩

/-- An event that is not about `op` changes nothing for it. -/
theorem SameCalls.cons {op : Op} {e : Event Op Blk π} (he : e.evaluatee ≠ some op)
    (hs : e.isStart = false) (log : List (Event Op Blk π)) : SameCalls op log (e :: log) := by
  constructor <;> cases e <;>
    simp_all [MlirInterpreter.isEvaluating, MlirInterpreter.hasCompleted,
      MlirInterpreter.lastAnswers,
      Event.evaluatee, Event.isStart]

/-! ## The invariants -/

variable [DecidableEq Blk]

/-- Every result of `op` has a memoized answer. -/
def AllMemoized (P : Program Op Blk) (s : State Op Blk σ π) (op : Op) : Prop :=
  ∀ i < P.numResults op, ∃ a, s.memo (.result op i) = some a

/-- `op` was entered, and may be evaluated. -/
structure Fresh (P : Program Op Blk) (s : State Op Blk σ π) (op : Op) : Prop where
  idle : isEvaluating op s.log = false
  entered : lastAnswers op s.log = none
  once : isBoundAround P op s.log = false → hasCompleted op s.log = false

/-- The calls of `evaluate` for `op` are over, and what the memo has to keep of them it keeps. -/
structure Settled (P : Program Op Blk) (s : State Op Blk σ π) (op : Op) : Prop where
  idle : isEvaluating op s.log = false
  memoized : isBoundAround P op s.log = false → hasCompleted op s.log = true → AllMemoized P s op

theorem Fresh.settled {P : Program Op Blk} {s : State Op Blk σ π} {op : Op} (h : Fresh P s op) :
    Settled P s op :=
  ⟨h.idle, fun hb hc => absurd hc (by simp [h.once hb])⟩

/-- What the memo, the frames and the slots have to do with the calls of the log. -/
structure MemoInv (P : Program Op Blk) (s : State Op Blk σ π) : Prop where
  settled : ∀ op ∉ s.engine.active, Settled P s op
  entered : ∀ op, s.log.head? = some (.entered op) → Fresh P s op
  /-- A frame is that of a bound block, and its values are defined in the region of the block. -/
  frames : ∀ frame ∈ s.engine.frames, frame.block ∈ boundBlocks s.log ∧
    ∀ v ∈ frame.memoized, State.memoize.contains P v frame = true
  slots : ∀ (e : ℕ) (entry : CacheEntry Op π) (i : ℕ) (a : Answer π),
    s.cache.arena[e]? = some entry →
    entry.results[i]? = some (some a) → a.isCompleted = true

/-- `evaluate` is called only if no call is running, and only if no call has returned completed
answers for all results, unless a block was bound around the operation. -/
def CallsOnce (P : Program Op Blk) (s : State Op Blk σ π) : Prop :=
  ∀ op log, s.log = .evaluating op :: log → isEvaluating op log = false ∧
    (isBoundAround P op log = false → hasCompleted op log = false)

omit [DecidableEq Blk] in
theorem CallsOnce.of_head {P : Program Op Blk} {s : State Op Blk σ π} {e : Event Op Blk π}
    (hl : s.log.head? = some e) (he : ∀ op, e ≠ .evaluating op) : CallsOnce P s := by
  intro op log hlog
  rw [hlog] at hl
  exact absurd (Option.some.inj hl).symm (he op)

section Invariants

variable {P : Program Op Blk} {s t : State Op Blk σ π} {op : Op} {e : Event Op Blk π}

omit [DecidableEq Blk] in
theorem Fresh.stable (h : Fresh P s op) (hc : SameCalls op s.log t.log)
    (hb : boundBlocks s.log ⊆ boundBlocks t.log) : Fresh P t op where
  idle := hc.isEvaluating.trans h.idle
  entered := hc.lastAnswers.trans h.entered
  once hno := hc.hasCompleted.trans (h.once (isBoundAround_mono hb hno))

theorem Settled.stable (h : Settled P s op) (hc : SameCalls op s.log t.log)
    (hb : boundBlocks s.log ⊆ boundBlocks t.log)
    (hm : isBoundAround P op t.log = false → AllMemoized P s op → AllMemoized P t op) :
    Settled P t op where
  idle := hc.isEvaluating.trans h.idle
  memoized hno hcomp :=
    hm hno (h.memoized (isBoundAround_mono hb hno) (hc.hasCompleted ▸ hcomp))

/-- A write that is not about an evaluation, and that erases no answer of an operation no block is
bound around. -/
theorem MemoInv.write (h : MemoInv P s) (hl : t.log = e :: s.log) (he : e.evaluatee = none)
    (hs : e.isStart = false) (ha : t.engine.active = s.engine.active)
    (hm : ∀ op, isBoundAround P op t.log = false → AllMemoized P s op → AllMemoized P t op)
    (hf : ∀ frame ∈ t.engine.frames, frame.block ∈ boundBlocks t.log ∧
      ∀ v ∈ frame.memoized, State.memoize.contains P v frame = true)
    (ht : ∀ (e : ℕ) (entry : CacheEntry Op π) (i : ℕ) (a : Answer π),
      t.cache.arena[e]? = some entry →
      entry.results[i]? = some (some a) → a.isCompleted = true) : MemoInv P t where
  settled op hop := by
    refine (h.settled op (ha ▸ hop)).stable ?_ ?_ (hm op)
    · rw [hl]
      exact .cons (by simp [he]) hs _
    · rw [hl]
      exact boundBlocks_cons hs _
  entered op hlog := by
    rw [hl] at hlog
    obtain rfl := Option.some.inj hlog
    cases he
  frames := hf
  slots := ht

/-- A write that touches neither the memo, nor the frames, nor the slots. -/
theorem MemoInv.write_of_eq (h : MemoInv P s) (hl : t.log = e :: s.log) (he : e.evaluatee = none)
    (hs : e.isStart = false) (ha : t.engine.active = s.engine.active)
    (hm : t.engine.queryAnswers = s.engine.queryAnswers) (hf : t.engine.frames = s.engine.frames)
    (hc : t.cache.arena = s.cache.arena) : MemoInv P t := by
  refine h.write hl he hs ha (fun op _ hall i hi => ?_) (fun frame hframe => ?_) (hc ▸ h.slots)
  · rw [State.memo, hm]
    exact hall i hi
  · obtain ⟨hblock, hmemo⟩ := h.frames frame (hf ▸ hframe)
    exact ⟨hl ▸ boundBlocks_cons hs _ hblock, hmemo⟩

theorem AllMemoized.memoize (h : AllMemoized P s op) (v : Value Op Blk) (a : Answer π) :
    AllMemoized P ((s.memoize P v a).note (.memoized v a)) op := by
  intro i hi
  simp only [State.memo, State.note, State.memoize, DenseMap.lookup_insert']
  split
  · exact ⟨a, rfl⟩
  · exact h i hi

omit [DecidableEq Blk] in
/-- `memoize` notes a value only in a frame whose region contains it. -/
theorem mem_attach {v : Value Op Blk} {frames : List (BindingFrame Op Blk)}
    (h : ∀ frame ∈ frames, ∀ u ∈ frame.memoized, State.memoize.contains P u frame = true)
    {frame : BindingFrame Op Blk} (hframe : frame ∈ State.memoize.attach P v frames) :
    (∃ frame' ∈ frames, frame'.block = frame.block) ∧
      ∀ u ∈ frame.memoized, State.memoize.contains P u frame = true := by
  induction frames with
  | nil => cases hframe
  | cons head rest ih =>
    have hrest := ih fun f hf => h f (List.mem_cons_of_mem _ hf)
    have keep : frame ∈ head :: rest → (∃ frame' ∈ head :: rest, frame'.block = frame.block) ∧
        ∀ u ∈ frame.memoized, State.memoize.contains P u frame = true := fun hf =>
      ⟨⟨frame, hf, rfl⟩, h frame hf⟩
    rw [State.memoize.attach] at hframe
    split at hframe
    · rcases List.mem_cons.mp hframe with rfl | hframe
      · exact keep List.mem_cons_self
      · obtain ⟨⟨frame', hmem, hblock⟩, hall⟩ := hrest hframe
        exact ⟨⟨frame', List.mem_cons_of_mem _ hmem, hblock⟩, hall⟩
    · split at hframe
      · next hcontains =>
        rcases List.mem_cons.mp hframe with rfl | hframe
        · refine ⟨⟨head, List.mem_cons_self, rfl⟩, fun u hu => ?_⟩
          rcases List.mem_append.mp hu with hu | hu
          · exact h head List.mem_cons_self u hu
          · rw [List.mem_singleton.mp hu]
            exact hcontains
        · exact keep (List.mem_cons_of_mem _ hframe)
      · exact keep hframe

theorem MemoInv.memoize (h : MemoInv P s) (v : Value Op Blk) (a : Answer π) :
    MemoInv P ((s.memoize P v a).note (.memoized v a)) := by
  refine h.write rfl rfl rfl rfl (fun op _ hall => hall.memoize v a)
    (fun frame hframe => ?_) h.slots
  obtain ⟨⟨frame', hmem, hblock⟩, hall⟩ := mem_attach (fun f hf => (h.frames f hf).2) hframe
  exact ⟨hblock ▸ (h.frames frame' hmem).1, hall⟩

/-- What a frame erases when it ends are answers of operations its block was bound around. -/
theorem MemoInv.unbind (h : MemoInv P s) {frame : BindingFrame Op Blk}
    (hframe : s.engine.frames.getLast? = some frame) :
    MemoInv P ((s.unbind P frame).note (.unbound frame.block)) := by
  obtain ⟨hblock, hmemo⟩ := h.frames frame (List.mem_of_getLast? hframe)
  refine h.write rfl rfl rfl rfl (fun op hno hall i hi => ?_)
    (fun f hf => h.frames f (List.mem_of_mem_dropLast hf)) h.slots
  simp only [State.memo, State.note, State.unbind, DenseMap.lookup_eraseAll]
  rw [if_neg]
  · exact hall i hi
  · -- The frame's region would contain the operation.
    intro hmem
    have hcontains := hmemo _ hmem
    rw [isBoundAround, List.any_eq_false] at hno
    refine hno frame.block hblock ?_
    rw [State.memoize.contains] at hcontains
    change (P.valueRegion (.result op i)).any _ = true
    revert hcontains
    cases P.valueRegion (.result op i) <;> exact id

theorem MemoInv.fillSlot (h : MemoInv P s) {entry idx : ℕ} {r : Retained π} {v : EvalValue π} :
    MemoInv P ((s.fillSlot entry idx r).note (.filled entry idx v r.value)) := by
  refine h.write rfl rfl rfl rfl (fun _ _ hall => hall) h.frames fun e ent i a he hi => ?_
  obtain ⟨ent', he', -, -, hslot, -⟩ := State.fillSlot_arena he
  rcases hslot i a hi with hi | ⟨-, -, rfl⟩
  · exact h.slots e ent' i a he' hi
  · rfl

theorem MemoInv.append (h : MemoInv P s) (op : Op) (key : HashCode) (slots : ℕ) :
    MemoInv P ((s.append op key slots).note (.appended op key s.cache.arena.length)) := by
  refine h.write rfl rfl rfl rfl (fun _ _ hall => hall) h.frames fun e ent i a he hi => ?_
  rcases State.append_arena he with he | ⟨-, rfl⟩
  · exact h.slots e ent i a he hi
  · simp [List.getElem?_replicate] at hi

end Invariants

/-! ## The theory -/

/-- What the calls of `evaluate` and the memo have to do with each other under arbitrary models. -/
def memoTheory (P : Program Op Blk) : Theory Op Blk σ π where
  contract := ⟨fun _ => True, CallsOnce P, fun _ => True⟩
  Inv := MemoInv P
  Rel s s' := s'.engine.active = s.engine.active ∧ boundBlocks s.log ⊆ boundBlocks s'.log ∧
    ∀ op ∈ s.engine.active, SameCalls op s.log s'.log
  Own op s s' := s'.engine.active = s.engine.active ∧ boundBlocks s.log ⊆ boundBlocks s'.log ∧
    (∀ o ∈ s.engine.active, o ≠ op → SameCalls o s.log s'.log) ∧
    (op ∈ s.engine.active → lastAnswers op s.log ≠ none → SameCalls op s.log s'.log)
  Pre _ _ := True
  Ans _ _ _ := True
  Within s op := op ∈ s.engine.active
  Uncached _ _ := True
  Key _ _ _ := True
  Missed _ _ _ _ := True
  Compared _ _ _ _ := True
  Found _ _ _ _ _ := True
  Kept _ _ _ := True
  Ready _ _ _ := True
  Results _ _ _ := True
  Out _ _ _ _ := True
  Unanswered s v := s.memo v = none ∨ ∀ op, hasCompleted op s.log = false
  Unevaluated := Fresh P
  Running s op := lastAnswers op s.log = none ∧
    (isBoundAround P op s.log = false → hasCompleted op s.log = false)
  Evaluated s op l := lastAnswers op s.log = some l ∧ isEvaluating op s.log = false ∧
    (isBoundAround P op s.log = false → hasCompleted op s.log = true →
      l.all Answer.isCompleted = true)
  Done s op _ _ := Settled P s op

section Writes

variable {E : Setup Op Blk σ π} {P : Program Op Blk} {s t : State Op Blk σ π}

theorem memoTheory_rel_trans {a b c : State Op Blk σ π} (h : (memoTheory P).Rel a b)
    (h' : (memoTheory P).Rel b c) : (memoTheory P).Rel a c :=
  ⟨h'.1.trans h.1, List.Subset.trans h.2.1 h'.2.1, fun op hop =>
    (h.2.2 op hop).trans (h'.2.2 op (h.1 ▸ hop))⟩

/-- A write that keeps the invariants and is not about an evaluation. -/
theorem memoTheory_allows {e : Event Op Blk π} (ht : MemoInv P t) (hl : t.log = e :: s.log)
    (he : e.evaluatee = none) (hs : e.isStart = false) (ha : t.engine.active = s.engine.active) :
    (memoTheory P).Allows s t := by
  refine fun _ => ⟨?_, ht, ha, ?_, fun op _ => ?_⟩
  · refine CallsOnce.of_head (by rw [hl]; rfl) fun op => ?_
    rintro rfl
    cases he
  · rw [hl]
    exact boundBlocks_cons hs _
  · rw [hl]
    exact .cons (by simp [he]) hs _

theorem memoTheory_allowsOwn {op : Op} {e : Event Op Blk π} (hs : MemoInv P s)
    (hw : op ∈ s.engine.active) (he : e.evaluatee = none) (hq : e.isStart = false) {Q : Prop}
    (hQ : Q) : (memoTheory P).AllowsOwn op s (s.note e) Q := by
  intro hr
  have hinv : MemoInv P (s.note e) := hs.write_of_eq rfl he hq rfl rfl rfl rfl
  obtain ⟨hg, hi, hact, hblocks, hcalls⟩ := memoTheory_allows hinv rfl he hq rfl hr
  exact ⟨hg, hi, ⟨hact, hblocks, fun o ho _ => hcalls o ho, fun ho _ => hcalls op ho⟩, hw, hQ⟩

theorem memoTheory_scopeWrite (hs : MemoInv E.program s) (h : ScopeWrite E s t) :
    (memoTheory E.program).Allows s t := by
  cases h with
  | bound block args harity hfree =>
    refine memoTheory_allows (e := .bound block args)
      (hs.write rfl rfl rfl rfl (fun _ _ hall => hall) ?_ hs.slots)
      rfl rfl rfl rfl
    intro frame hframe
    rcases List.mem_append.mp hframe with hframe | hframe
    · obtain ⟨hblock, hmemo⟩ := hs.frames frame hframe
      exact ⟨List.mem_cons_of_mem _ hblock, hmemo⟩
    · rw [List.mem_singleton.mp hframe]
      exact ⟨List.mem_cons_self, by rintro v ⟨⟩⟩
  | unbound frame hframe => exact memoTheory_allows (hs.unbind hframe) rfl rfl rfl rfl
  | _ => exact memoTheory_allows (hs.write_of_eq rfl rfl rfl rfl rfl rfl rfl) rfl rfl rfl rfl

/-- A method of a model keeps the calls for the operations it is part of. -/
theorem memoTheory_runScope {ask : Value Op Blk → EngineM Op Blk σ π (Answer π)}
    (ha : (memoTheory E.program).Asks ask s.engine.active) (hs : MemoInv E.program s) {α : Type}
    (p : ScopeM Op Blk σ π α) :
    wp (memoTheory E.program).contract (runScope E ask p) s fun _ t =>
      MemoInv E.program t ∧ (memoTheory E.program).Rel s t :=
  Theory.wp_runScope (T := memoTheory E.program)
    (fun _ => ⟨rfl, List.Subset.refl _, fun op _ => .refl op _⟩)
    (fun _ _ _ h h' => memoTheory_rel_trans h h') (fun _ _ h => h.1) (fun _ _ _ => trivial)
    (fun _ _ => trivial) (fun _ _ ht hu => memoTheory_scopeWrite ht hu) ha hs p

theorem memoTheory_fill {l : List (Answer π)} {e : ℕ} (hs : MemoInv E.program s) :
    wp (memoTheory E.program).contract (fill E e l) s fun _ t =>
      MemoInv E.program t ∧ (memoTheory E.program).Rel s t := by
  let T : Theory Op Blk σ π := memoTheory E.program
  refine wp_bind (wp_mono (wp_fillSlots (J := fun _ t => T.Inv t ∧ T.Rel s t) (fun j a t _ ht => ?_)
    ⟨hs, rfl, List.Subset.refl _, fun op _ => .refl op _⟩) fun _ t ht => ?_)
  · refine wp_fillSlot (fun _ => trivial) (fun _ => ht) (fun _ _ _ _ => ht) fun entry v _ _ _ => ?_
    intro r u hr
    obtain ⟨hg, hi, hrel⟩ :=
      memoTheory_allows (s := t) (t := u) (MemoInv.fillSlot ht.1) rfl rfl rfl rfl hr
    exact ⟨hg, hi, memoTheory_rel_trans ht.2 hrel⟩
  · refine wp_record fun hr => ?_
    obtain ⟨hg, hi, hrel⟩ := memoTheory_allows (s := t) (t := t.note (.stored e))
      (MemoInv.write_of_eq ht.1 rfl rfl rfl rfl rfl rfl rfl) rfl rfl rfl rfl hr
    exact ⟨hg, hi, memoTheory_rel_trans ht.2 hrel⟩

end Writes

section Places

variable {E : Setup Op Blk σ π} {s s' : State Op Blk σ π} {op : Op} {i : ℕ}
  {cached : Option CacheLookup}

/-- An operation that is entered is not memoized. -/
theorem memoTheory_enter (hs : (memoTheory E.program).Inv s)
    (hn : (memoTheory E.program).Unanswered s (.result op i)) (hi : i < E.program.numResults op)
    (hact : op ∉ s.engine.active) :
    (memoTheory E.program).contract.guar ((s.enter op).note (.entered op)) ∧
      (memoTheory E.program).Inv ((s.enter op).note (.entered op)) ∧
      (memoTheory E.program).Within ((s.enter op).note (.entered op)) op := by
  have hfresh : Fresh E.program ((s.enter op).note (.entered op)) op := by
    refine ⟨(hs.settled op hact).idle, by simp [State.note, lastAnswers], fun hno => ?_⟩
    rcases hn with hn | hn
    · by_contra hcomp
      obtain ⟨a, ha⟩ := (hs.settled op hact).memoized hno
        ((Bool.not_eq_false _).mp hcomp) i hi
      simp [hn] at ha
    · exact hn op
  refine ⟨CallsOnce.of_head rfl (by simp),
    ⟨fun o ho => ?_, fun o hlog => ?_, hs.frames, hs.slots⟩,
    Finset.mem_insert_self op _⟩
  · obtain ⟨hne, hout⟩ := not_or.mp (fun h => ho (Finset.mem_insert.mpr h))
    refine (hs.settled o hout).stable ?_ (boundBlocks_cons rfl _) fun _ hall => hall
    exact .cons (by simpa [Event.evaluatee] using fun h : op = o => hne h.symm) rfl _
  · obtain rfl := Event.entered.inj (Option.some.inj hlog)
    exact hfresh

/-- What an operation that is left has memoized is settled. -/
theorem memoTheory_leave {a : Answer π} (hop : op ∉ s.engine.active)
    (hd : (memoTheory E.program).Does op ((s.enter op).note (.entered op)) s')
    (hdone : (memoTheory E.program).Done s' op i a) :
    (memoTheory E.program).contract.guar ((s'.leave op).note (.left op)) ∧
      (memoTheory E.program).Inv ((s'.leave op).note (.left op)) ∧
      (memoTheory E.program).Rel s ((s'.leave op).note (.left op)) ∧
      (memoTheory E.program).Ans ((s'.leave op).note (.left op)) (.result op i) a := by
  have hact : s'.engine.active = Insert.insert op s.engine.active := hd.own.1
  have hleft : (s'.leave op).engine.active = s.engine.active := by
    simp [State.leave, hact, hop]
  have hblocks : boundBlocks s'.log ⊆ boundBlocks ((s'.leave op).note (.left op)).log :=
    boundBlocks_cons rfl _
  have hcalls : ∀ o, SameCalls o s'.log ((s'.leave op).note (.left op)).log := fun o =>
    .cons (by simp [Event.evaluatee]) rfl _
  refine ⟨CallsOnce.of_head rfl (by simp), ⟨fun o ho => ?_, ?_, hd.inv.frames, hd.inv.slots⟩,
    ⟨hleft, ?_, fun o ho => ?_⟩, trivial⟩
  · by_cases hoo : o = op
    · subst hoo
      exact Settled.stable hdone (hcalls o) hblocks fun _ hall => hall
    · refine (hd.inv.settled o fun ho' => ho ?_).stable (hcalls o) hblocks fun _ hall => hall
      exact Finset.mem_erase.mpr ⟨hoo, ho'⟩
  · rintro o ⟨⟩
  · exact List.Subset.trans
      (boundBlocks_cons rfl _ : boundBlocks s.log ⊆ boundBlocks (.entered op :: s.log))
      (List.Subset.trans hd.own.2.1 hblocks)
  · have hne : o ≠ op := fun h => hop (h ▸ ho)
    refine (SameCalls.cons (e := .entered op) ?_ rfl s.log).trans
      ((hd.own.2.2.1 o (Finset.mem_insert_of_mem ho) hne).trans (hcalls o))
    simpa [Event.evaluatee] using hne.symm

/-- `evaluate` is called once. -/
theorem memoTheory_charge (hs : (memoTheory E.program).Inv s)
    (hw : (memoTheory E.program).Within s op) (hun : (memoTheory E.program).Unevaluated s op)
    (hr : (memoTheory E.program).contract.rely (s.charge.note .charged)) :
    (memoTheory E.program).contract.guar (s.charge.note .charged) ∧
      (memoTheory E.program).AllowsOwn op s ((s.charge.note .charged).note (.evaluating op))
        ((memoTheory E.program).Ready ((s.charge.note .charged).note (.evaluating op)) op cached ∧
         (memoTheory E.program).Running ((s.charge.note .charged).note (.evaluating op)) op) := by
  have hallow := memoTheory_allows (s := s) (t := s.charge.note .charged) (e := .charged)
    (hs.write_of_eq rfl rfl rfl rfl rfl rfl rfl) rfl rfl rfl rfl
  refine ⟨(hallow hr).1, fun _ => ?_⟩
  have hlast : lastAnswers op ((s.charge.note .charged).note (.evaluating op)).log =
      none := hun.entered
  have hcalls : ∀ o, o ≠ op →
      SameCalls o s.log ((s.charge.note .charged).note (.evaluating op)).log := fun o ho =>
    (SameCalls.cons (e := .charged) (by simp [Event.evaluatee]) rfl s.log).trans
      (.cons (by simpa [Event.evaluatee] using ho.symm) rfl _)
  refine ⟨?_, ⟨fun o ho => ?_, by rintro o ⟨⟩, hs.frames, hs.slots⟩,
    ⟨rfl, List.Subset.refl _, fun o _ ho => hcalls o ho, fun _ hne => absurd hun.entered hne⟩, hw,
    trivial, hlast, hun.once⟩
  · rintro o log ⟨⟩
    exact ⟨hun.idle, hun.once⟩
  · have hne : o ≠ op := fun h => ho (h ▸ hw)
    exact (hs.settled o ho).stable (hcalls o hne) (List.Subset.refl _) fun _ hall => hall

/-- The call of `evaluate` returns. -/
theorem memoTheory_evaluated {l : List (Answer π)} (hs : (memoTheory E.program).Inv s)
    (hw : (memoTheory E.program).Within s op) (hrun : (memoTheory E.program).Running s op) :
    (memoTheory E.program).AllowsOwn op s (s.note (.evaluated op l))
      ((memoTheory E.program).Ready (s.note (.evaluated op l)) op cached ∧
       (memoTheory E.program).Evaluated (s.note (.evaluated op l)) op l) := by
  intro _
  have hcalls : ∀ o, o ≠ op → SameCalls o s.log (s.note (.evaluated op l)).log := fun o ho =>
    .cons (by simpa [Event.evaluatee] using ho.symm) rfl _
  refine ⟨CallsOnce.of_head rfl (by simp), ⟨fun o ho => ?_, by rintro o ⟨⟩, hs.frames, hs.slots⟩,
    ⟨rfl, List.Subset.refl _, fun o _ ho => hcalls o ho, fun _ hne => absurd hrun.1 hne⟩, hw,
    trivial, ?_, ?_, fun hno hcomp => ?_⟩
  · have hne : o ≠ op := fun h => ho (h ▸ hw)
    exact (hs.settled o ho).stable (hcalls o hne) (List.Subset.refl _) fun _ hall => hall
  · simp [State.note, lastAnswers]
  · simp [State.note, isEvaluating]
  · by_contra hall
    rw [State.note, hasCompleted, if_neg (fun h => hall h.2), hrun.2 hno] at hcomp
    cases hcomp

end Places

/-- **The memo keeps an operation from being evaluated again.** -/
theorem memoTheory_sound [Fintype Op] (E : Setup Op Blk σ π) : (memoTheory E.program).Sound E where
  rel_refl _ := ⟨rfl, List.Subset.refl _, fun op _ => .refl op _⟩
  rel_trans _ _ _ h h' := memoTheory_rel_trans h h'
  own_of_rel op _ _ h := ⟨h.1, h.2.1, fun o ho _ => h.2.2 o ho, fun ho _ => h.2.2 op ho⟩
  own_trans op a b c h h' := by
    refine ⟨h'.1.trans h.1, List.Subset.trans h.2.1 h'.2.1,
      fun o ho hne => (h.2.2.1 o ho hne).trans (h'.2.2.1 o (h.1 ▸ ho) hne), fun ho hlast => ?_⟩
    have hcalls := h.2.2.2 ho hlast
    exact hcalls.trans (h'.2.2.2 (h.1 ▸ ho) (by rwa [hcalls.lastAnswers]))
  own_active _ _ _ h := h.1
  within_stable s s' op hm hw := by
    change op ∈ s'.engine.active
    rwa [hm.rel.1]
  unevaluated_stable s s' op hm hw h := h.stable (hm.rel.2.2 op hw) hm.rel.2.1
  running_stable s s' op hm hw h := by
    have hcalls := hm.rel.2.2 op hw
    exact ⟨hcalls.lastAnswers.trans h.1,
      fun hno => hcalls.hasCompleted.trans (h.2 (isBoundAround_mono hm.rel.2.1 hno))⟩
  missed_stable _ _ _ _ _ _ _ _ := trivial
  found_stable _ _ _ _ _ _ _ _ _ := trivial
  kept_stable _ _ _ _ _ _ _ := trivial
  results_stable _ _ _ _ _ _ _ := trivial
  unanswered _ _ _ _ hmemo := Or.inl hmemo
  memo_hit _ _ _ _ _ _ := trivial
  memo_add s s' v a _ hm _ _ _ := memoTheory_allows (hm.inv.memoize v a) rfl rfl rfl rfl
  ans_memoized _ _ _ _ _ := trivial
  arg _ _ _ _ _ := trivial
  invalid _ _ _ _ _ _ := trivial
  constant s op i _ hs _ _ := by
    refine wp_mono (Theory.wp_evaluateConstant (T := memoTheory E.program) hs
      ⟨rfl, List.Subset.refl _, fun op _ => .refl op _⟩ (fun attr type payload => ?_)
      fun t ht => memoTheory_scopeWrite hs ht) fun r t ht => ⟨ht.1, ht.2, trivial⟩
    exact memoTheory_allows (hs.write_of_eq rfl rfl rfl rfl rfl rfl rfl) rfl rfl rfl rfl
  cycle _ _ _ _ _ _ _ _ _ := trivial
  enter _ _ _ _ _ hs _ hn hi hact _ := memoTheory_enter hs hn hi hact
  leave _ _ _ _ _ _ _ _ hop hd hdone _ := memoTheory_leave hop hd hdone
  cacheable s op model ask _ ha hs hw hlog :=
    wp_mono (memoTheory_runScope ha hs _) fun r t ht => by
      have hfresh : Fresh E.program t op :=
        (hs.entered op hlog).stable (ht.2.2.2 op hw) ht.2.2.1
      exact ⟨ht.1, ht.2, fun _ => trivial, fun _ => trivial, fun _ _ => hfresh,
        fun _ _ _ _ => hfresh.settled⟩
  hash s op model ask _ ha hs hw _ hun :=
    wp_mono (memoTheory_runScope ha hs _) fun r t ht =>
      ⟨ht.1, ht.2, fun _ _ => trivial, fun _ _ _ _ =>
        (hun.stable (ht.2.2.2 op hw) ht.2.2.1).settled⟩
  unevaluated_search s op e he hun := by
    have hcons : ∀ e : Event Op Blk π, e.evaluatee = none → e.isStart = false →
        Fresh E.program (s.note e) op := fun e he hs =>
      hun.stable (.cons (by simp [he]) hs _) (boundBlocks_cons hs _)
    rcases he with ⟨key, rfl⟩ | ⟨key, n, verdict, rfl⟩
    · exact hcons _ rfl rfl
    · exact hcons _ rfl rfl
  searching s op key hs hw _ := memoTheory_allowsOwn hs hw rfl rfl trivial
  candidate_range _ _ _ _ _ _ _ := trivial
  scan_length _ _ _ _ _ _ _ := trivial
  own s op key n e entry hs hw _ _ _ _ := memoTheory_allowsOwn hs hw rfl rfl trivial
  shape s op key n e entry hs hw _ _ _ _ _ := memoTheory_allowsOwn hs hw rfl rfl trivial
  equivalent s op key n e entry model ask _ ha hs _ _ _ _ _ _ :=
    wp_mono (memoTheory_runScope ha hs _) fun r t ht => ⟨ht.1, ht.2, trivial⟩
  skipped s op key n e entry st hs hw _ _ _ _ _ _ := memoTheory_allowsOwn hs hw rfl rfl trivial
  different s op key n e entry hs hw _ _ _ _ _ _ := memoTheory_allowsOwn hs hw rfl rfl trivial
  matching s op key n e entry hs hw _ _ _ _ _ _ := memoTheory_allowsOwn hs hw rfl rfl trivial
  exhausted s op i cached _ _ hun _ _ _ := hun.settled
  charge _ _ _ _ hs hw hun _ _ _ hr := memoTheory_charge hs hw hun hr
  evaluates s op model ask cached _ ha hs _ _ :=
    wp_mono (memoTheory_runScope ha hs _) fun l t ht => ⟨ht.1, ht.2, trivial, trivial⟩
  count _ _ _ _ _ _ _ := trivial
  evaluated _ _ _ _ hs hw hrun _ _ _ := memoTheory_evaluated hs hw hrun
  evaluated_stable s s' op l hs hd h := by
    have hw : op ∈ s.engine.active := by
      have hw' : op ∈ s'.engine.active := hd.within
      rwa [hd.own.1] at hw'
    have hcalls := hd.own.2.2.2 hw (by simp [h.1])
    refine ⟨hcalls.lastAnswers.trans h.1, hcalls.isEvaluating.trans h.2.1, fun hno hcomp => ?_⟩
    exact h.2.2 (isBoundAround_mono hd.own.2.1 hno) (hcalls.hasCompleted ▸ hcomp)
  ready_stable _ _ _ _ _ _ _ := trivial
  ready s op cached _ _ _ _ _ := by rcases cached with ⟨key, _ | e, n⟩ <;> trivial
  reuse s op key n e l hs _ _ _ :=
    memoTheory_allows (hs.write_of_eq rfl rfl rfl rfl rfl rfl rfl) rfl rfl rfl rfl
  fill s₀ s op e l hs _ _ _ _ _ _ _ := memoTheory_fill hs
  append s₀ s op key n l hs hw _ _ _ _ _ _ _ := by
    refine wp_bind (wp_read (wp_bind (wp_record fun hr => ?_)))
    obtain ⟨hg, hi, hrel⟩ :=
      memoTheory_allows (s := s) (hs.append op key l.length) rfl rfl rfl rfl hr
    refine ⟨hg, wp_bind (wp_mono (memoTheory_fill hi) fun _ u hu => wp_pure ?_)⟩
    have hrel' := memoTheory_rel_trans hrel hu.2
    refine ⟨hu.1, ⟨hrel'.1, hrel'.2.1, fun o ho _ => hrel'.2.2 o ho, fun ho _ =>
      hrel'.2.2 op ho⟩, ?_, trivial⟩
    change op ∈ u.engine.active
    rwa [hrel'.1]
  kept _ _ _ _ _ _ _ _ := trivial
  kept_range _ _ _ _ _ _ _ _ := trivial
  kept_slot _ _ _ _ _ _ _ _ _ _ _ := trivial
  unstored _ _ _ _ _ _ _ _ _ _ := trivial
  unstored_stable _ _ _ _ _ _ _ _ := trivial
  result _ _ _ _ _ _ _ _ _ _ := trivial
  memo_own s op i a hs _ _ _ _ _ := memoTheory_allows (hs.memoize _ a) rfl rfl rfl rfl
  hit s op key n e entry i a _ _ hun _ _ _ := hun.settled
  finish s op l i a hs _ h hlen hmemo _ := by
    refine ⟨h.2.1, fun hno hcomp j hj => ?_⟩
    have hj' : j < l.length := hlen ▸ hj
    obtain ⟨b, hb, hmemoized⟩ := hmemo j l[j] hj' (List.getElem?_eq_getElem hj')
    refine hmemoized ?_
    rcases hb with rfl | ⟨e, entry, he, hslot⟩
    · exact List.all_eq_true.mp (h.2.2 hno hcomp) _ (List.getElem_mem hj')
    · exact hs.slots e entry j b he hslot

/-! ## Every history -/

/-- What the theory needs of the state between two queries. -/
structure MemoAtRest (s : State Op Blk σ π) : Prop where
  active : s.engine.active = ∅
  frames : s.engine.frames = []
  slots : ∀ (e : ℕ) (entry : CacheEntry Op π) (i : ℕ) (a : Answer π),
    s.cache.arena[e]? = some entry →
    entry.results[i]? = some (some a) → a.isCompleted = true

section Histories

variable [Fintype Op] {E : Setup Op Blk σ π}

theorem memoTheory_query {s : State Op Blk σ π} (hs : MemoAtRest s) (engine budget : ℕ)
    (value : Value Op Blk) :
    wp (memoTheory E.program).contract (query E engine budget value) s fun _ t => MemoAtRest t := by
  refine wp_query (fun _ => trivial) fun _ => ⟨CallsOnce.of_head rfl (by simp), ?_⟩
  generalize ht : (s.beginQuery engine budget).note (.queryStarted engine budget value) = t
  have hinv : MemoInv E.program t := by
    subst ht
    refine ⟨fun op _ => ⟨rfl, fun _ hcomp => by cases hcomp⟩, by rintro op ⟨⟩, ?_, hs.slots⟩
    change ∀ frame ∈ s.engine.frames, _
    simp [hs.frames]
  have hactive : t.engine.active = ∅ := by subst ht; exact hs.active
  have hfirst : ∀ op, hasCompleted op t.log = false := by subst ht; exact fun _ => rfl
  refine wp_mono ((memoTheory_sound E).wp_compute (Nat.lt_succ_self _) hinv trivial (Or.inr hfirst)
    (by omega)) fun r u hu => ?_
  have hend : ∀ u' : State Op Blk σ π, u'.engine = u.engine → u'.cache = u.cache → ∀ a,
      u'.engine.scopesEnded = true →
        MemoAtRest (u'.endQuery.note (.queryEnded engine value a)) := by
    intro u' he hc a hclean
    rw [Engine.scopesEnded, Bool.and_eq_true, Bool.and_eq_true] at hclean
    refine ⟨?_, List.isEmpty_iff.mp hclean.1.1, ?_⟩
    · change u'.engine.active = ∅
      rw [he, hu.2.1.1, hactive]
    · change ∀ e entry i a, u'.cache.arena[e]? = some entry → _
      rw [hc]
      exact hu.1.slots
  refine wp_handOut (fun _ => ⟨fun _ => trivial, fun hclean _ => ?_⟩) fun v _ => ?_
  · exact ⟨CallsOnce.of_head rfl (by simp), hend u rfl rfl _ hclean⟩
  · refine fun _ => ⟨CallsOnce.of_head rfl (by simp), fun _ => trivial, fun hclean _ => ?_⟩
    refine ⟨CallsOnce.of_head rfl (by simp),
      hend (State.note _ (State.retainAnswer engine _ u)) rfl rfl _ ?_⟩
    exact hclean

/-- **An operation is evaluated once.**  In every run of arbitrary models, `evaluate` is called for
an operation only if no call of it is running, and only if no call of it has returned completed
answers for all results in the same query, unless the operation is nested in a region of which a
block was bound in the query. -/
theorem evaluated_once {past : List (State Op Blk σ π)} {s : State Op Blk σ π}
    (h : History E past s) (engine budget : ℕ) (value : Value Op Blk) :
    ∀ t ∈ past ++ (query E engine budget value s).visited, ∀ op log, t.log = .evaluating op :: log →
      isEvaluating op log = false ∧
        (isBoundAround E.program op log = false → hasCompleted op log = false) := by
  obtain ⟨hs, hpast⟩ : MemoAtRest s ∧ ∀ t ∈ past, CallsOnce E.program t := by
    refine h.invariant
      (fun w => ⟨⟨rfl, rfl, by simp [State.init, EvalCache.empty]⟩, by rintro _ _ ⟨⟩⟩)
      (fun s engine budget value _ hs => ?_)
      fun s hs => ⟨⟨hs.active, hs.frames, by simp [State.note, State.clear, EvalCache.empty]⟩,
        CallsOnce.of_head rfl (by simp)⟩
    obtain ⟨hg, hq, -⟩ := memoTheory_query (E := E) hs engine budget value fun _ _ => trivial
    exact ⟨hg, fun r s' hr => hq r s' hr⟩
  obtain ⟨hg, -, -⟩ := memoTheory_query (E := E) hs engine budget value fun _ _ => trivial
  intro t ht
  rcases List.mem_append.mp ht with ht | ht
  · exact hpast t ht
  · exact hg t ht

/-- `evaluate` was called. -/
def Event.isEvaluating : Event Op Blk π → Bool
  | .evaluating _ => true
  | _ => false

/-- Models that ask for operands in every method. -/
theorem evaluated_once_reentrant :
    ∃ t ∈ (query reentrantSetup 0 100 (.result 8 0) (State.init ())).visited, ∃ op log,
      t.log = .evaluating op :: log ∧ isEvaluating op log = false ∧
        (isBoundAround loopProgram op log = false → hasCompleted op log = false) := by
  have hcalls : ((query reentrantSetup 0 100 (.result 8 0) (State.init ())).visited.any fun t =>
      t.log.head?.any Event.isEvaluating) = true := by decide +kernel
  obtain ⟨t, ht, hlog⟩ := List.any_eq_true.mp hcalls
  obtain ⟨e, he, hevent⟩ := (Option.any_eq_true _ _).mp hlog
  cases e <;> simp only [Event.isEvaluating, Bool.false_eq_true] at hevent
  next op =>
    obtain ⟨log, hl⟩ := List.head?_eq_some_iff.mp he
    exact ⟨t, ht, op, log, hl, evaluated_once (.init ()) 0 100 (.result 8 0) t
      (List.mem_append_right _ ht) op log hl⟩

end Histories

end MlirInterpreter
