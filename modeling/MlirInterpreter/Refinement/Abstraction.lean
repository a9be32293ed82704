import MlirInterpreter.Evaluation.Queries
import MlirInterpreter.Reference.SemanticKey

/-!
# The engine as a sharing machine

On a program without loops the engine is the machine of `Sharing`, run on the graph of the program's
operations: `State.sharing` is what the machine sees of a state.

`Flat` is what holds of the state between the writes: no block is bound and nothing is frozen, what
is memoized or cached is the reference value, and the buckets are those of the machine.  Most writes
are not seen by the machine (`Unseen`).  `Answered` says that a nested query did what the machine
does for it.
-/

set_option autoImplicit false

namespace MlirInterpreter

open Recorded

variable {Op Blk σ : Type}

/-! ## What the log tells -/

/-- The log since the cache was cleared. -/
def sinceCleared {π : Type} (log : List (Event Op Blk π)) : List (Event Op Blk π) :=
  log.takeWhile fun
    | .cleared => false
    | _ => true

/-- The operation an entry was made for. -/
def Event.appendedOp? {π : Type} : Event Op Blk π → Option Op
  | .appended op _ _ => some op
  | _ => none

/-- The operation that was evaluated, with a known answer. -/
def Event.knownOp? {π : Type} : Event Op Blk π → Option Op
  | .evaluated op results => if results.any Answer.isKnown then some op else none
  | _ => none

/-- The operation that is evaluated. -/
def Event.evaluatingOp? {π : Type} : Event Op Blk π → Option Op
  | .evaluating op => some op
  | _ => none

/-- The operations that entries were made for since the cache was cleared, last first. -/
def appendedOps {π : Type} (log : List (Event Op Blk π)) : List Op :=
  (sinceCleared log).filterMap Event.appendedOp?

/-- The operations that were evaluated with a known answer since the cache was cleared, last
first. -/
def knownOps {π : Type} (log : List (Event Op Blk π)) : List Op :=
  (sinceCleared log).filterMap Event.knownOp?

/-- The operations that were evaluated, last first. -/
def evaluatedOps {π : Type} (log : List (Event Op Blk π)) : List Op :=
  log.filterMap Event.evaluatingOp?

/-- The events the machine sees. -/
def Event.isSeen {π : Type} : Event Op Blk π → Bool
  | .cleared => true
  | .appended .. => true
  | .evaluated _ results => results.any Answer.isKnown
  | .evaluating _ => true
  | _ => false

section Log

variable {π : Type} {e : Event Op Blk π}

theorem sinceCleared_cons (he : e ≠ .cleared) (log : List (Event Op Blk π)) :
    sinceCleared (e :: log) = e :: sinceCleared log := by
  cases e <;> first | exact absurd rfl he | rfl

theorem knownOps_cons (he : e ≠ .cleared) (log : List (Event Op Blk π)) :
    knownOps (e :: log) = e.knownOp?.toList ++ knownOps log := by
  rw [knownOps, sinceCleared_cons he, List.filterMap_cons]
  cases e.knownOp? <;> rfl

theorem appendedOps_cons (he : e ≠ .cleared) (log : List (Event Op Blk π)) :
    appendedOps (e :: log) = e.appendedOp?.toList ++ appendedOps log := by
  rw [appendedOps, sinceCleared_cons he, List.filterMap_cons]
  cases e.appendedOp? <;> rfl

theorem ne_cleared (he : e.isSeen = false) : e ≠ .cleared := by
  rintro rfl
  cases he

theorem knownOps_unseen (he : e.isSeen = false) (log : List (Event Op Blk π)) :
    knownOps (e :: log) = knownOps log := by
  have hop : e.knownOp? = none := by cases e <;> simp_all [Event.isSeen, Event.knownOp?]
  rw [knownOps_cons (ne_cleared he), hop]
  rfl

theorem appendedOps_unseen (he : e.isSeen = false) (log : List (Event Op Blk π)) :
    appendedOps (e :: log) = appendedOps log := by
  have hop : e.appendedOp? = none := by cases e <;> simp_all [Event.isSeen, Event.appendedOp?]
  rw [appendedOps_cons (ne_cleared he), hop]
  rfl

theorem evaluatedOps_unseen (he : e.isSeen = false) (log : List (Event Op Blk π)) :
    evaluatedOps (e :: log) = evaluatedOps log := by
  have hop : e.evaluatingOp? = none := by cases e <;> simp_all [Event.isSeen, Event.evaluatingOp?]
  rw [evaluatedOps, List.filterMap_cons_none hop]
  rfl

end Log

/-! ## What the machine sees -/

section

variable [DecidableEq Op] [DecidableEq Blk]

/-- The state of the machine: the `arith` operations whose result is memoized, and those with
entries. -/
def State.sharing (P : Program Op Blk) (s : State Op Blk σ APInt) : Sharing.State Op where
  memo := {op | P.isArith op = true ∧ ∃ a, s.memo (.result op 0) = some a}
  entries := s.cache.arena.map CacheEntry.op
  evaluated := evaluatedOps s.log
  remaining := s.engine.remaining

/-- What the machine replies where the engine signals. -/
def Signal.reply : Signal → Sharing.Reply
  | .exhausted => .exhausted
  | _ => .cycle

/-- What the machine replies where the engine completes or signals. -/
def EvalResult.reply {α : Type} : EvalResult α → Sharing.Reply
  | .completed _ => .done
  | .signal st => st.reply

theorem Signal.reply_ne_done (st : Signal) : st.reply ≠ .done := by
  cases st <;> simp [reply]

theorem Answer.reply_of_isCompleted {π : Type} {a : Answer π} (h : a.isCompleted = true) :
    a.reply = .done := by
  cases a with
  | completed _ => rfl
  | signal _ => cases h

theorem Answer.isCompleted_of_reply {π : Type} {a : Answer π} (h : a.reply = .done) :
    a.isCompleted = true := by
  cases a with
  | completed _ => rfl
  | signal st => exact absurd h st.reply_ne_done

end

section Flat

section

variable [DecidableEq Op] [DecidableEq Blk] [Fintype Op]

/-- The cache belongs to the machine: entries are for `arith` operations, with their reference
values, and are found in the buckets of the machine. -/
structure FlatCache (P : Program Op Blk) (H : HashFns Op Blk) (s : State Op Blk σ APInt) :
    Prop where
  entries : ∀ e ∈ s.cache.arena, P.isArith e.op = true ∧
    ∃ v, e.results = [some (.known v)] ∧ P.denote (.result e.op 0) = some v.payload
  buckets : ∀ key, (s.bucket key).map (fun e => s.cache.arena[e]?.map CacheEntry.op) =
    ((s.cache.arena.map CacheEntry.op).filter fun g =>
      (Arith.sharingGraph P H).hash g = .inl key).map some
  known : knownOps s.log = (s.cache.arena.map CacheEntry.op).reverse
  appended : appendedOps s.log = (s.cache.arena.map CacheEntry.op).reverse

/-- A state of the engine on a program without loops. -/
structure Flat (P : Program Op Blk) (H : HashFns Op Blk) (s : State Op Blk σ APInt) : Prop where
  handles : HandleStore s
  bindings : ∀ key, s.engine.bindings.lookup key = none
  freezes : s.engine.freezes = 0
  memo : ∀ v a, s.memo v = some a → a.isCompleted = true ∧ a.payload? = P.denote v
  cache : FlatCache P H s

/-- What stays as it was. -/
structure Keeps (s t : State Op Blk σ APInt) : Prop where
  active : t.engine.active = s.engine.active
  heap : s.heap ⊆ t.heap
  queries : t.queries = s.queries

/-- A write that the machine does not see. -/
structure Unseen (s t : State Op Blk σ APInt) : Prop where
  arena : t.cache.arena = s.cache.arena
  entries : t.cache.entries = s.cache.entries
  memo : t.engine.queryAnswers = s.engine.queryAnswers
  bindings : t.engine.bindings = s.engine.bindings
  freezes : t.engine.freezes = s.engine.freezes
  remaining : t.engine.remaining = s.engine.remaining
  log : ∃ e, e.isSeen = false ∧ t.log = e :: s.log

end

variable {P : Program Op Blk} {H : HashFns Op Blk} {mem : Malloc} {s t u : State Op Blk σ APInt}

theorem Keeps.refl (s : State Op Blk σ APInt) : Keeps s s := ⟨rfl, List.Subset.refl _, rfl⟩

theorem Keeps.trans (h : Keeps s t) (h' : Keeps t u) : Keeps s u :=
  ⟨h'.active.trans h.active, List.Subset.trans h.heap h'.heap, h'.queries.trans h.queries⟩

theorem Usable.keeps {v : EvalValue APInt} (h : Usable s v) (hk : Keeps s t) : Usable t v :=
  h.mono hk.heap hk.queries

/-- An event alone. -/
theorem Keeps.note (e : Event Op Blk APInt) (s : State Op Blk σ APInt) : Keeps s (s.note e) :=
  ⟨rfl, List.Subset.refl _, rfl⟩

theorem Unseen.note {e : Event Op Blk APInt} (he : e.isSeen = false) (s : State Op Blk σ APInt) :
    Unseen s (s.note e) :=
  ⟨rfl, rfl, rfl, rfl, rfl, rfl, e, he, rfl⟩

section

variable [DecidableEq Op] [DecidableEq Blk]

theorem Unseen.sharing (h : Unseen s t) : t.sharing P = s.sharing P := by
  obtain ⟨e, he, hlog⟩ := h.log
  simp only [State.sharing, State.memo, h.memo, h.arena, h.remaining, hlog, evaluatedOps_unseen he]

variable [Fintype Op]

theorem FlatCache.of_eq (h : FlatCache P H s) (ha : t.cache.arena = s.cache.arena)
    (he : t.cache.entries = s.cache.entries) (hk : knownOps t.log = knownOps s.log)
    (hl : appendedOps t.log = appendedOps s.log) : FlatCache P H t where
  entries := ha ▸ h.entries
  buckets key := by
    have hb : t.bucket key = s.bucket key := by
      rw [State.bucket, State.bucket, EvalCache.bucket, EvalCache.bucket, he]
    rw [hb, ha]
    exact h.buckets key
  known := by rw [hk, ha]; exact h.known
  appended := by rw [hl, ha]; exact h.appended

theorem Unseen.flatCache (h : Unseen s t) (hs : FlatCache P H s) : FlatCache P H t := by
  obtain ⟨e, he, hlog⟩ := h.log
  exact hs.of_eq h.arena h.entries (by rw [hlog, knownOps_unseen he])
    (by rw [hlog, appendedOps_unseen he])

theorem Unseen.flat (h : Unseen s t) (hs : Flat P H s) (hr : HandleGuar t) : Flat P H t where
  handles := hr.store
  bindings := by rw [h.bindings]; exact hs.bindings
  freezes := h.freezes.trans hs.freezes
  memo := by
    simp only [State.memo, h.memo]
    exact hs.memo
  cache := h.flatCache hs.cache

/-- Nothing but the correctness of handles is relied on. -/
def flatContract :
    Contract (State Op Blk σ APInt) Abort := ⟨HandleGuar, fun _ => True, fun _ => True⟩

/-- A write that the machine does not see. -/
theorem wp_unseen {e : Event Op Blk APInt} {f : State Op Blk σ APInt → State Op Blk σ APInt}
    (hs : Flat P H s) (hun : Unseen s ((f s).note e)) {Q : Unit → State Op Blk σ APInt → Prop}
    (hq : Flat P H ((f s).note e) → ((f s).note e).sharing P = s.sharing P → Q () ((f s).note e)) :
    wp flatContract (record e f) s Q :=
  wp_record fun hr => ⟨trivial, hq (hun.flat hs hr) hun.sharing⟩

/-! ## Nested queries -/

/-- What a completed answer for the value of `r` is. -/
structure Right (s : State Op Blk σ APInt) (r : Option APInt) (a : Answer APInt) : Prop where
  payload : a.isCompleted = true → a.payload? = r
  usable : ∀ w, a.value? = some w → Usable s w

/-- A nested query of `v` was answered with `a`, as the machine does it. -/
structure Answered (P : Program Op Blk) (H : HashFns Op Blk) (s : State Op Blk σ APInt)
    (v : Value Op Blk) (a : Answer APInt) (t : State Op Blk σ APInt) : Prop where
  flat : Flat P H t
  keeps : Keeps s t
  right : Right t (P.denote v) a
  run : Sharing.Run (Arith.sharingGraph P H) s.engine.active (s.sharing P)
    (.askAll (P.arithOp? v).toList)
    a.reply (t.sharing P)

/-- Nested queries are answered as the machine does it, while the operations of `A` are being
evaluated. -/
def FlatAsks (P : Program Op Blk) (H : HashFns Op Blk)
    (ask : Value Op Blk → EngineM Op Blk σ APInt (Answer APInt)) (A : Finset Op) : Prop :=
  ∀ v s, P.Valid v → Flat P H s → s.engine.active = A →
    wp flatContract (ask v) s fun a t => Answered P H s v a t

end

theorem Right.keeps {r : Option APInt} {a : Answer APInt} (h : Right s r a) (hk : Keeps s t) :
    Right t r a :=
  ⟨h.payload, fun w hw => (h.usable w hw).keeps hk⟩

theorem Right.of_unknown {r : Option APInt} (h : r = none) : Right s r .unknown :=
  ⟨fun _ => h.symm, fun _ hw => by cases hw⟩

theorem Right.of_known {r : Option APInt} {v : EvalValue APInt} (hv : Usable s v)
    (h : r = some v.payload) :
    Right s r (.known v) :=
  ⟨fun _ => h.symm, fun _ hw => Option.some.inj hw ▸ hv⟩

theorem Right.of_signal {r : Option APInt} (st : Signal) : Right s r (.signal st) where
  payload h := by cases h
  usable w hw := by cases hw

variable [DecidableEq Op] [DecidableEq Blk] [Fintype Op]

/-- A memoized answer. -/
theorem Flat.memo_right (hs : Flat P H s) {v : Value Op Blk} {a : Answer APInt}
    (h : s.memo v = some a) :
    Right s (P.denote v) a :=
  ⟨fun _ => (hs.memo v a h).2, fun w hw => hs.handles.memo v a w h hw⟩

variable {ask : Value Op Blk → EngineM Op Blk σ APInt (Answer APInt)} {α : Type}

/-- A nested query of a method. -/
theorem wp_flat_query (ha : FlatAsks P H ask s.engine.active) (hs : Flat P H s) {v : Value Op Blk}
    (hv : P.Valid v) {f : Answer APInt → ScopeM Op Blk σ APInt α}
    {Q : α → State Op Blk σ APInt → Prop}
    (hq : ∀ a t, Answered P H s v a t →
      wp flatContract (runScope (shipped P H mem) ask (f a)) t Q) :
    wp flatContract (runScope (shipped P H mem) ask (EvalScope.query v >>= f)) s Q := by
  refine Prog.wp_run_bind ?_
  rw [EvalScope.query, Prog.run_lift]
  refine wp_bind (wp_mono (ha v s hv hs rfl) fun a t h => ?_)
  refine wp_bind (wp_unseen h.flat (.note rfl t) fun hflat hsharing => wp_pure ?_)
  exact hq a _ ⟨hflat, h.keeps.trans (.note _ t), h.right.keeps (.note _ t), hsharing ▸ h.run⟩

/-- A new storage. -/
theorem wp_flat_allocate (hs : Flat P H s) {payload : APInt}
    {f : EvalValue APInt → ScopeM Op Blk σ APInt α} {Q : α → State Op Blk σ APInt → Prop}
    (hq : ∀ v t, Flat P H t → Keeps s t → t.sharing P = s.sharing P → Usable t v →
      v.payload = payload →
      wp flatContract (runScope (shipped P H mem) ask (f v)) t Q) :
    wp flatContract (runScope (shipped P H mem) ask (EvalScope.allocate payload >>= f)) s Q := by
  refine Prog.wp_run_bind ?_
  rw [EvalScope.allocate, Prog.run_lift]
  let v : EvalValue APInt := newStorage mem s.heap (.query s.queries) payload
  have hun : Unseen s ((s.addStorage v).note (.allocated v)) :=
    ⟨rfl, rfl, rfl, rfl, rfl, rfl, _, rfl, rfl⟩
  refine wp_bind (wp_read (wp_bind (wp_unseen hs hun fun hflat hsharing => wp_pure ?_)))
  exact hq v _ hflat ⟨rfl, List.subset_cons_self _ _, rfl⟩
    hsharing ⟨List.mem_cons_self, Or.inr rfl⟩ rfl

end Flat

end MlirInterpreter
