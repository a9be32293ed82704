import MlirInterpreter.Engine.CacheInvariant
import MlirInterpreter.Dialects.Confined
import MlirInterpreter.Evaluation.Environment

/-!
# What the shipped models keep

The theory of the engine with the shipped models.  `EvalInv` is its invariant: frames, bindings and
memo belong together and are right, and so is every filled slot of the cache, in the environment
without bound blocks.  `AnswerOk` is what every answer guarantees:

* if the program has no use-def cycle, a known answer is right, and so is an unknown one if no
  binding made an unknown answer stale;
* a query is exhausted only if nothing remains of its budget;
* a cycle is reported only if an operation being evaluated is demanded again.

`EvalRel` is the accounting: what was charged since is exactly the evaluations and iterations since.

Handles and the representation of the cache are relied on, which their own theories justify.
-/

set_option autoImplicit false

namespace MlirInterpreter

open Recorded

variable {Op Blk σ : Type}

/-! ## Accounting and binding discipline -/

/-- The number of `evaluate` calls and of iterations started. -/
def work {π : Type} (log : List (Event Op Blk π)) : ℕ :=
  log.countP fun
    | .evaluating _ => true
    | .bound .. => true
    | _ => false

section

variable [DecidableEq Blk]

/-- The blocks bound at the end of a log, most recent first.  There are none if a block was bound
twice or with the wrong number of answers, or if bindings did not end in reverse order. -/
def openBlocks {π : Type} (P : Program Op Blk) : List (Event Op Blk π) → Option (List Blk)
  | [] => some []
  | .bound b args :: log =>
    match openBlocks P log with
    | some blocks => if b ∉ blocks ∧ args.length = P.numArgs b then some (b :: blocks) else none
    | none => none
  | .unbound b :: log =>
    match openBlocks P log with
    | some (c :: blocks) => if b = c then some blocks else none
    | _ => none
  | _ :: log => openBlocks P log

/-- The events that write the cache. -/
def Event.isStore {π : Type} : Event Op Blk π → Bool
  | .appended .. => true
  | .filled .. => true
  | _ => false

/-- The events that write the frames, or say how a value was answered. -/
def Event.isEval {π : Type} : Event Op Blk π → Bool
  | .bound .. => true
  | .unbound _ => true
  | .answered .. => true
  | _ => false

/-- The events a step is charged for. -/
def Event.isWork {π : Type} : Event Op Blk π → Bool
  | .bound .. => true
  | .evaluating _ => true
  | _ => false

omit [DecidableEq Blk] in
theorem work_cons {π : Type} {e : Event Op Blk π} (he : e.isWork = false)
    (log : List (Event Op Blk π)) : work (e :: log) = work log := by
  rw [work, work, List.countP_cons_of_neg]
  cases e <;> simp_all [Event.isWork]

theorem openBlocks_cons {π : Type} {P : Program Op Blk} {e : Event Op Blk π} (he : e.isEval = false)
    (log : List (Event Op Blk π)) : openBlocks P (e :: log) = openBlocks P log := by
  cases e <;> simp_all [Event.isEval, openBlocks]

section Definitions

variable [Fintype Op] (P : Program Op Blk) (exact : Prop) [DecidableEq Op]

/-- Between the writes of a query. -/
structure EvalInv (s : State Op Blk σ APInt) : Prop where
  handles : HandleStore s
  cache : CacheInv P s
  frames : FramesInv P s.engine
  memo : Coherent P exact s.engine
  /-- A cached answer is right without any binding. -/
  slots : P.Acyclic → ∀ (e : ℕ) (entry : CacheEntry Op APInt) (i : ℕ) v,
    s.cache.arena[e]? = some entry → entry.results[i]? = some (some (.known v)) →
    reference P Env.empty (.result entry.op i) = some v.payload
  /-- Bindings ended in reverse order so far. -/
  blocks : openBlocks P s.log = some s.engine.blocks.reverse

/-- What is shown of every state. -/
structure EvalGuar (s : State Op Blk σ APInt) : Prop where
  frames : FramesInv P s.engine
  blocks : openBlocks P s.log = some s.engine.blocks.reverse
  /-- The cache is written only while no block is bound. -/
  stored : ∀ e, s.log.head? = some e → e.isStore = true → s.engine.frames = []
  /-- A nested query was answered right for the current bindings. -/
  answered : P.Acyclic → ∀ v a, s.log.head? = some (.answered v a) →
    Agrees exact a (reference P s.engine.env v)

/-- What is relied on. -/
structure EvalRely (s : State Op Blk σ APInt) : Prop where
  handles : HandleGuar s
  cache : CacheInv P s
  fresh : exact → NoStaleUnknown P s

/-- What a run leaves as it was, and that it was charged `m` steps and did the work of `n`, besides
the work it was charged for itself. -/
structure EvalRelBy (n m : ℕ) (s s' : State Op Blk σ APInt) : Prop where
  active : s'.engine.active = s.engine.active
  blocks : s'.engine.blocks = s.engine.blocks
  bindings : ∀ key, s'.engine.bindings.lookup key = s.engine.bindings.lookup key
  freezes : s'.engine.freezes = s.engine.freezes
  work : work s'.log + s'.engine.remaining + m = work s.log + s.engine.remaining + n

/-- What a nested query leaves as it was, and that it accounted for its steps. -/
abbrev EvalRel (s s' : State Op Blk σ APInt) : Prop := EvalRelBy 0 0 s s'

/-- What a signal says; `reach` are the operations that may have been demanded. -/
def SignalOk (s : State Op Blk σ APInt) (reach : Op → Prop) : Signal → Prop
  | .exhausted => s.engine.remaining = 0
  | .needsOrder => False
  | .cycle => P.Acyclic → ∃ o ∈ s.engine.active, reach o

/-- What an answer about the value `r` guarantees. -/
structure AnswerOk (s : State Op Blk σ APInt) (r : Option APInt) (reach : Op → Prop)
    (a : Answer APInt) : Prop where
  usable : ∀ w, a.value? = some w → Usable s w
  agrees : P.Acyclic → Agrees exact a r
  signal : ∀ st, a = .signal st → SignalOk P s reach st

/-- The operations a value may demand. -/
def Reaches : Value Op Blk → Op → Prop
  | .result op _ => Relation.ReflTransGen P.Demands op
  | .arg _ _ => fun _ => False

/-- The operations an operation may demand for its results. -/
abbrev Below (op : Op) : Op → Prop := Relation.TransGen P.Demands op

/-- The results of two operations have the same values. -/
def SameResults (s : State Op Blk σ APInt) (op other : Op) : Prop :=
  P.Acyclic → ∀ i, reference P s.engine.env (.result op i) = reference P s.engine.env
    (.result other i)

/-- An entry for an operation with the same results as `op`. -/
def EntryFor (s : State Op Blk σ APInt) (op : Op) (e : ℕ) : Prop :=
  ∃ entry, s.cache.arena[e]? = some entry ∧ entry.results.length = P.numResults op ∧
    SameResults P s op entry.op

/-- The theory of the shipped models. -/
def evalTheory : Theory Op Blk σ APInt where
  contract := ⟨EvalRely P exact, EvalGuar P exact, fun x => x = .outOfFuel ∨ x = .outOfRange⟩
  Inv := EvalInv P exact
  Rel := EvalRel
  Own _ := EvalRel
  Pre _ v := P.Valid v
  Ans s v := AnswerOk P exact s (reference P s.engine.env v) (Reaches P v)
  Within s op := op ∈ s.engine.active ∧ ∀ b, P.loopBody op = some b → b ∉ s.engine.blocks
  Uncached _ _ := True
  Key _ _ _ := True
  Missed _ _ _ _ := True
  Compared s op other r := r = .completed true → SameResults P s op other
  Found s op _ _ e := EntryFor P s op e
  Kept := EntryFor P
  Ready s op
    | some ⟨_, some e, _⟩ => EntryFor P s op e
    | _ => True
  Results s op l := l.length = P.numResults op ∧ ∀ (i : ℕ) a, l[i]? = some a →
    AnswerOk P exact s (reference P s.engine.env (.result op i)) (Below P op) a
  Out s op i := AnswerOk P exact s (reference P s.engine.env (.result op i)) (Below P op)

end Definitions

end

section Stability

variable {P : Program Op Blk} {exact : Prop} {s t u : State Op Blk σ APInt}

section

variable [DecidableEq Blk]

theorem EvalRelBy.refl (s : State Op Blk σ APInt) : EvalRelBy 0 0 s s :=
  ⟨rfl, rfl, fun _ => rfl, rfl, rfl⟩

theorem EvalRelBy.trans {n m n' m' : ℕ} (h : EvalRelBy n m s t) (h' : EvalRelBy n' m' t u) :
    EvalRelBy (n + n') (m + m') s u where
  active := h'.active.trans h.active
  blocks := h'.blocks.trans h.blocks
  bindings key := (h'.bindings key).trans (h.bindings key)
  freezes := h'.freezes.trans h.freezes
  work := by
    have h₁ := h.work
    have h₂ := h'.work
    omega

/-- Charges and work cancel out. -/
theorem EvalRelBy.cancel {n : ℕ} (h : EvalRelBy n n s t) : EvalRel s t where
  active := h.active
  blocks := h.blocks
  bindings := h.bindings
  freezes := h.freezes
  work := Nat.add_right_cancel h.work

theorem EvalRelBy.env {n m : ℕ} (h : EvalRelBy n m s t) : t.engine.env = s.engine.env := by
  funext b i
  rw [Engine.env, Engine.env, h.bindings]

end

theorem SignalOk.stable {reach : Op → Prop} {st : Signal} (h : SignalOk P s reach st)
    (ha : t.engine.active = s.engine.active) (hc : Continues s t) : SignalOk P t reach st := by
  cases st with
  | exhausted => exact Nat.le_zero.mp ((show s.engine.remaining = 0 from h) ▸ hc.remaining_le)
  | needsOrder => exact h
  | cycle => exact fun hA => ha ▸ h hA

/-- What an answer guarantees stays true. -/
theorem AnswerOk.stable {r : Option APInt} {reach : Op → Prop} {a : Answer APInt}
    (h : AnswerOk P exact s r reach a) (ha : t.engine.active = s.engine.active)
    (hc : Continues s t) : AnswerOk P exact t r reach a where
  usable w hw := (h.usable w hw).mono hc.heap.subset hc.queries
  agrees := h.agrees
  signal st hst := (h.signal st hst).stable ha hc

theorem AnswerOk.mono {r : Option APInt} {reach reach' : Op → Prop} {a : Answer APInt}
    (h : AnswerOk P exact s r reach a) (hr : ∀ o, reach o → reach' o) :
    AnswerOk P exact s r reach' a where
  usable := h.usable
  agrees := h.agrees
  signal st hst := by
    have := h.signal st hst
    cases st with
    | exhausted => exact this
    | needsOrder => exact this
    | cycle => exact fun hA => (this hA).imp fun o ho => ⟨ho.1, hr o ho.2⟩

section

variable [DecidableEq Op] [DecidableEq Blk] [Fintype Op]

theorem SameResults.stable {op other : Op} (h : SameResults P s op other) (hrel : EvalRel s t) :
    SameResults P t op other := by
  intro hA i
  rw [hrel.env]
  exact h hA i

theorem EntryFor.stable {op : Op} {e : ℕ} (h : EntryFor P s op e) (hrel : EvalRel s t)
    (hc : Continues s t) : EntryFor P t op e := by
  obtain ⟨entry, he, hlen, hsame⟩ := h
  obtain ⟨entry', he', hx⟩ := hc.cache.arena e entry he
  exact ⟨entry', he', hx.length.trans hlen, hx.op ▸ hsame.stable hrel⟩

end

/-- What an operation depends on, it may demand. -/
theorem below_of_reaches {op : Op} {v : Value Op Blk} (hv : v ∈ P.dependencies op) {o : Op}
    (h : Reaches P v o) : Below P op o := by
  cases v with
  | result op' i => exact .head' ⟨i, hv⟩ h
  | arg b i => exact h.elim

/-- The answer of a value an operation depends on is fit for an answer of the operation. -/
theorem AnswerOk.below {op : Op} {v : Value Op Blk} {r : Option APInt} {a : Answer APInt}
    (h : AnswerOk P exact s r (Reaches P v) a) (hv : v ∈ P.dependencies op) :
    AnswerOk P exact s r (Below P op) a :=
  h.mono fun _ => below_of_reaches hv

/-- A signal is passed on, whatever the value. -/
theorem AnswerOk.pass {r r' : Option APInt} {reach : Op → Prop} {st : Signal}
    (h : AnswerOk P exact s r reach (.signal st)) : AnswerOk P exact s r' reach (.signal st) where
  usable := h.usable
  agrees _ := .of_signal st
  signal := h.signal

theorem AnswerOk.of_signal {r : Option APInt} {reach : Op → Prop} {st : Signal}
    (h : SignalOk P s reach st) : AnswerOk P exact s r reach (.signal st) where
  usable w hw := by simp at hw
  agrees _ := .of_signal st
  signal st' hst := by
    obtain rfl : st = st' := by simpa using hst
    exact h

theorem AnswerOk.of_unknown {r : Option APInt} {reach : Op → Prop}
    (h : P.Acyclic → exact → r = none) : AnswerOk P exact s r reach .unknown where
  usable w hw := by simp at hw
  agrees hA := .of_unknown (h hA)
  signal st hst := by simp at hst

theorem AnswerOk.of_known {r : Option APInt} {reach : Op → Prop} {v : EvalValue APInt}
    (hv : Usable s v) (h : P.Acyclic → r = some v.payload) :
    AnswerOk P exact s r reach (.known v) where
  usable w hw := by
    obtain rfl : v = w := by simpa using hw
    exact hv
  agrees hA := .of_known (h hA)
  signal st hst := by simp at hst

/-- A known answer is the value. -/
theorem AnswerOk.known_eq {r : Option APInt} {reach : Op → Prop} {v : EvalValue APInt}
    (h : AnswerOk P exact s r reach (.known v)) (hA : P.Acyclic) : r = some v.payload :=
  (h.agrees hA).known v rfl

/-- A trusted unknown answer is about an unknown value. -/
theorem AnswerOk.unknown_eq {r : Option APInt} {reach : Op → Prop}
    (h : AnswerOk P exact s r reach .unknown) (hA : P.Acyclic) (he : exact) : r = none :=
  (h.agrees hA).unknown he rfl

end Stability

/-! ## Writes -/

section Writes

variable [Fintype Op] {P : Program Op Blk} {exact : Prop} {s t : State Op Blk σ APInt}
  [DecidableEq Op] [DecidableEq Blk]

theorem EvalInv.guar (h : EvalInv P exact t) {e : Event Op Blk APInt} (hl : t.log.head? = some e)
    (hstore : e.isStore = true → t.engine.frames = [])
    (hans : P.Acyclic → ∀ v a, e = .answered v a → Agrees exact a (reference P t.engine.env v)) :
    EvalGuar P exact t where
  frames := h.frames
  blocks := h.blocks
  stored e' he' := by
    obtain rfl := Option.some.inj (hl.symm.trans he')
    exact hstore
  answered hA v a hva := hans hA v a (Option.some.inj (hl.symm.trans hva))

/-- A write that changes neither the entries nor what the engine has bound and memoized. -/
theorem EvalInv.of_eq (hs : EvalInv P exact s) (hr : EvalRely P exact t)
    (hc : t.cache.arena = s.cache.arena) (hm : t.engine.queryAnswers = s.engine.queryAnswers)
    (hf : t.engine.frames = s.engine.frames) (hb : t.engine.bindings = s.engine.bindings)
    (hfr : t.engine.freezes = s.engine.freezes)
    (ha : ∀ b ∈ s.engine.blocks, ∃ op ∈ t.engine.active, P.loopBody op = some b)
    (hl : openBlocks P t.log = openBlocks P s.log) : EvalInv P exact t := by
  have hblocks : t.engine.blocks = s.engine.blocks := by rw [Engine.blocks, hf, Engine.blocks]
  have henv : t.engine.env = s.engine.env := by
    funext b i
    rw [Engine.env, Engine.env, hb]
  have henvAt : t.engine.envAt = s.engine.envAt := by
    funext k b i
    rw [Engine.envAt, Engine.envAt, hblocks, henv]
  refine ⟨hr.handles.store, hr.cache, ⟨?_, ?_, ?_, ?_, ?_, ?_⟩, ⟨?_, ?_⟩, ?_, ?_⟩
  · exact hblocks ▸ hs.frames.nodup
  · exact hblocks ▸ ha
  · rw [hblocks, hb]; exact hs.frames.bound
  · rw [hblocks, hb]; exact hs.frames.total
  · rw [henv]; exact hs.frames.typed
  · rw [hf, hfr]; exact hs.frames.frozen
  · rw [hm]; exact hs.memo.valid
  · rw [hm, henvAt]
    simp only [Engine.Forgets, hf]
    exact hs.memo.agrees
  · rw [hc]; exact hs.slots
  · rw [hl, hblocks]; exact hs.blocks

/-- A write that changes neither the entries nor what the engine has bound and memoized may happen
anywhere. -/
theorem evalTheory_allows {e : Event Op Blk APInt} (hs : EvalInv P exact s)
    (hc : t.cache.arena = s.cache.arena) (hen : t.engine = s.engine) (hl : t.log = e :: s.log)
    (he : e.isEval = false) (hst : e.isStore = false) (hw : e.isWork = false) :
    (evalTheory P exact).Allows s t := by
  intro hr
  have hinv := hs.of_eq hr hc (by rw [hen]) (by rw [hen]) (by rw [hen]) (by rw [hen])
    (hen ▸ hs.frames.loops) (by rw [hl, openBlocks_cons he])
  refine ⟨hinv.guar (e := e) (by rw [hl]; rfl) (by simp [hst]) ?_, hinv, ?_⟩
  · rintro - v a rfl
    simp [Event.isEval] at he
  · exact ⟨by rw [hen], by rw [hen], fun _ => by rw [hen], by rw [hen],
      by rw [hl, hen, work_cons hw]⟩

/-- An event alone. -/
theorem evalTheory_note {e : Event Op Blk APInt} (hs : EvalInv P exact s) (he : e.isEval = false)
    (hst : e.isStore = false) (hw : e.isWork = false) :
    (evalTheory P exact).Allows s (s.note e) :=
  evalTheory_allows hs rfl rfl rfl he hst hw

end Writes

end MlirInterpreter
