import MlirInterpreter.Engine.Growth

/-!
# A proof rule for the engine

`Engine::compute`, the models and the cache call each other, so a property of all their runs is
proved along one big induction.  This module does the induction once.

A `Theory` says what is claimed of the runs of an engine:

* `Inv` holds of every state in which a nested query starts or ends, `Rel` relates the two, and
  `Ans` is what the answer of the query guarantees, if the value asked for satisfied `Pre`;
* `Own op` relates the states reached while `op` is being evaluated; the predicates from `Within` on
  are what is known locally, at a place in the code for `op`.

`Theory.Sound` lists what has to be shown: one field for every place where the code writes the state
or runs a method of a model, each with everything known there.  `Theory.Sound.wp_evaluate` concludes
that every nested query keeps the theory's contract, and `Theory.Sound.wp_compute` that every
computation does.
-/

set_option autoImplicit false

namespace MlirInterpreter

open Recorded

variable {Op Blk σ π : Type}

/-! ## Rules for the primitives -/

section Primitives

variable {C : Contract (State Op Blk σ π) Abort}

theorem wp_readEntry {entry : ℕ} {s : State Op Blk σ π}
    {Q : CacheEntry Op π → State Op Blk σ π → Prop}
    (hx : s.cache.arena[entry]? = none → C.abort .outOfRange)
    (h : ∀ e, s.cache.arena[entry]? = some e → Q e s) : wp C (readEntry entry) s Q := by
  refine wp_bind (wp_read ?_)
  cases he : s.cache.arena[entry]? with
  | none => exact wp_stop (hx he)
  | some e => exact wp_pure (h e he)

theorem wp_readSlot {entry idx : ℕ} {s : State Op Blk σ π}
    {Q : Option (Answer π) → State Op Blk σ π → Prop}
    (hx : (∀ e, s.cache.arena[entry]? = some e → e.results.length ≤ idx) → C.abort .outOfRange)
    (h : ∀ e slot, s.cache.arena[entry]? = some e → e.results[idx]? = some slot → Q slot s) :
    wp C (readSlot entry idx) s Q := by
  refine wp_bind (wp_readEntry (fun he => hx fun e he' => ?_) fun e he => ?_)
  · simp [he] at he'
  · cases hs : e.results[idx]? with
    | none =>
      refine wp_stop (hx fun e' he' => ?_)
      obtain rfl : e = e' := by simpa [he] using he'
      exact List.getElem?_eq_none_iff.mp hs
    | some slot => exact wp_pure (h e slot he hs)

theorem wp_declareCost {s : State Op Blk σ π} {Q : Bool → State Op Blk σ π → Prop}
    (h0 : s.engine.remaining = 0 → Q false s)
    (h1 : s.engine.remaining ≠ 0 → C.rely (s.charge.note .charged) →
      C.guar (s.charge.note .charged) ∧ Q true (s.charge.note .charged)) :
    wp C declareCost s Q := by
  refine wp_bind (wp_read ?_)
  by_cases h : s.engine.remaining = 0
  · rw [if_pos h]
    exact wp_pure (h0 h)
  · rw [if_neg h]
    exact wp_bind (wp_record fun hr => ⟨(h1 h hr).1, wp_pure (h1 h hr).2⟩)

theorem wp_memoize [DecidableEq Op] [DecidableEq Blk] {E : Setup Op Blk σ π} {v : Value Op Blk}
    {a : Answer π} {s : State Op Blk σ π} {Q : Unit → State Op Blk σ π → Prop}
    (h0 : ∀ a', s.memo v = some a' → Q () s)
    (h1 : s.memo v = none → C.rely ((s.memoize E.program v a).note (.memoized v a)) →
      C.guar ((s.memoize E.program v a).note (.memoized v a)) ∧
        Q () ((s.memoize E.program v a).note (.memoized v a))) :
    wp C (memoize E v a) s Q := by
  refine wp_bind (wp_read ?_)
  cases hm : s.engine.queryAnswers.lookup v with
  | some a' => exact wp_pure (h0 a' hm)
  | none => exact wp_record (h1 hm)

theorem wp_fillSlot {E : Setup Op Blk σ π} {entry idx : ℕ} {a : Answer π}
    {s : State Op Blk σ π} {Q : Unit → State Op Blk σ π → Prop}
    (hx : (∀ e, s.cache.arena[entry]? = some e → e.results.length ≤ idx) → C.abort .outOfRange)
    (h0 : a.isKnown = false → Q () s)
    (h1 : ∀ e b, s.cache.arena[entry]? = some e → e.results[idx]? = some (some b) → Q () s)
    (h2 : ∀ e v, a = .known v → s.cache.arena[entry]? = some e → e.results[idx]? = some none →
      let r := retain E.mem .cache s.heap s.cache.copies v
      let t := (s.fillSlot entry idx r).note (.filled entry idx v r.value)
      C.rely t → C.guar t ∧ Q () t) :
    wp C (fillSlot E entry idx a) s Q := by
  refine wp_bind (wp_readSlot hx fun e slot he hslot => ?_)
  rcases slot with _ | b
  · rcases a with (_ | v) | st
    · exact wp_pure (h0 rfl)
    · exact wp_bind (wp_read (wp_record (h2 e v rfl he hslot)))
    · exact wp_pure (h0 rfl)
  · exact wp_pure (h1 e b he hslot)

/-- The invariant rule for the loop of `fill`; the invariant may depend on the slot. -/
theorem wp_fillSlots {E : Setup Op Blk σ π} {entry : ℕ} {J : ℕ → State Op Blk σ π → Prop}
    {l : List (Answer π)} {idx : ℕ} {s : State Op Blk σ π}
    (h : ∀ (j : ℕ) a t, l[j]? = some a → J (idx + j) t →
      wp C (fillSlot E entry (idx + j) a) t fun _ u => J (idx + j + 1) u)
    (hs : J idx s) : wp C (fillSlots E entry idx l) s fun _ t => J (idx + l.length) t := by
  induction l generalizing idx s with
  | nil => exact wp_pure hs
  | cons a l ih =>
    refine wp_bind (wp_mono (h 0 a s rfl hs) fun _ t ht => ?_)
    have hlen : idx + (a :: l).length = idx + 1 + l.length := by simp; omega
    rw [hlen]
    refine ih (fun j b u hj hu => ?_) ht
    have hidx : idx + 1 + j = idx + (j + 1) := by omega
    rw [hidx] at hu ⊢
    exact h (j + 1) b u hj hu

/-- A constant is converted into the cache, or for the query, if its attribute denotes a value. -/
theorem wp_evaluateConstant {E : Setup Op Blk σ π} {op : Op} {s : State Op Blk σ π}
    {Q : Option (EvalValue π) → State Op Blk σ π → Prop}
    (h0 : (∀ attr model payload, E.program.constantAttr op = some attr →
      E.models.attr attr = some model → model.toEvalValue ≠ some payload) → Q none s)
    (hhit : ∀ attr model value, E.program.constantAttr op = some attr →
      E.models.attr attr = some model →
      model.isCacheable = true →
      s.cache.constants.lookup (attr, E.program.valueType (.result op 0)) = some value → Q value s)
    (hstore : ∀ attr model, E.program.constantAttr op = some attr →
      E.models.attr attr = some model →
      model.isCacheable = true →
      let type := E.program.valueType (.result op 0)
      let value := model.toEvalValue.map (newStorage E.mem s.heap .cache)
      let t := (s.storeConstant (attr, type) value).note (.constantStored attr type value)
      C.rely t → C.guar t ∧ Q value t)
    (hallocate : ∀ attr model payload, E.program.constantAttr op = some attr →
      E.models.attr attr = some model → model.toEvalValue = some payload →
      let v := newStorage E.mem s.heap (.query s.queries) payload
      let t := (s.addStorage v).note (.allocated v)
      C.rely t → C.guar t ∧ Q (some v) t) :
    wp C (evaluateConstant E op) s fun r t => Q r.1 t := by
  rw [evaluateConstant]
  cases hattr : E.program.constantAttr op with
  | none => exact wp_pure (h0 fun attr _ _ h => by simp [hattr] at h)
  | some attr =>
    cases hm : E.models.attr attr with
    | none =>
      simp only [hm]
      refine wp_pure (h0 fun attr' model _ h hmodel => ?_)
      obtain rfl := Option.some.inj (hattr.symm.trans h)
      simp [hm] at hmodel
    | some model =>
      simp only [hm]
      split
      · next hcacheable =>
        refine wp_bind (wp_read ?_)
        cases hlook : s.cache.constants.lookup (attr, E.program.valueType (.result op 0)) with
        | some value => exact wp_pure (hhit attr model value hattr hm hcacheable hlook)
        | none =>
          refine wp_bind (wp_record fun hr => ?_)
          obtain ⟨hg, hq⟩ := hstore attr model hattr hm hcacheable hr
          exact ⟨hg, wp_pure hq⟩
      · cases hv : model.toEvalValue with
        | none =>
          refine wp_pure (h0 fun attr' model' payload h hmodel => ?_)
          obtain rfl := Option.some.inj (hattr.symm.trans h)
          obtain rfl := Option.some.inj (hm.symm.trans hmodel)
          simp [hv]
        | some payload =>
          refine wp_bind (wp_bind (wp_read (wp_bind (wp_record fun hr => ?_))))
          obtain ⟨hg, hq⟩ := hallocate attr model payload hattr hm hv hr
          exact ⟨hg, wp_pure (wp_pure hq)⟩

end Primitives

/-- The part of `insert` that appends an entry. -/
def appendEntry (E : Setup Op Blk σ π) (op : Op) (key : HashCode) (answers : List (Answer π)) :
    EngineM Op Blk σ π ℕ := do
  let s ← Rec.read
  let entry := s.cache.arena.length
  record (.appended op key entry) (State.append op key answers.length)
  fill E entry answers
  return entry

section

variable [DecidableEq Op] [DecidableEq Blk]

/-- The part of `evaluateOp` that is charged for. -/
def evaluateCharged (E : Setup Op Blk σ π) (ask : Value Op Blk → EngineM Op Blk σ π (Answer π))
    (fuel : ℕ) (op : Op) (idx : ℕ) (model : OpModel Op Blk σ π) (cached : Option CacheLookup) :
    EngineM Op Blk σ π (Answer π) := do
  record (.evaluating op) id
  let results ← runScope E ask model.evaluate
  require (results.length = E.program.numResults op) .resultCount
  record (.evaluated op results) id
  let entry ← store E ask fuel op model cached results
  memoizeResults E op entry results 0 results.length
  canonical entry results idx

/-- What a method of a model writes itself. -/
inductive ScopeWrite (E : Setup Op Blk σ π) (s : State Op Blk σ π) : State Op Blk σ π → Prop
  | answered (value : Value Op Blk) (answer : Answer π) :
    ScopeWrite E s (s.note (.answered value answer))
  | charged (h : s.engine.remaining ≠ 0) : ScopeWrite E s (s.charge.note .charged)
  | frozen : ScopeWrite E s (s.freeze.note .frozen)
  | thawed (h : 0 < s.engine.freezes) : ScopeWrite E s (s.thaw.note .thawed)
  | bound (block : Blk) (args : List (Answer π)) (harity : args.length = E.program.numArgs block)
    (hfree : ∀ frame ∈ s.engine.frames, frame.block ≠ block) :
    ScopeWrite E s ((s.bind E.program block args).note (.bound block args))
  | unbound (frame : BindingFrame Op Blk) (h : s.engine.frames.getLast? = some frame) :
    ScopeWrite E s ((s.unbind E.program frame).note (.unbound frame.block))
  | allocated (payload : π) :
    ScopeWrite E s ((s.addStorage (newStorage E.mem s.heap (.query s.queries) payload)).note
      (.allocated (newStorage E.mem s.heap (.query s.queries) payload)))
  | worldChanged (w : σ) : ScopeWrite E s ((s.setWorld w).note .worldChanged)

/-! ## Theories -/

/-- What is claimed of the runs of an engine. -/
structure Theory (Op Blk σ π : Type) where
  contract : Contract (State Op Blk σ π) Abort
  /-- Holds whenever a nested query starts or ends. -/
  Inv : State Op Blk σ π → Prop
  /-- Relates the states in which a nested query starts and ends. -/
  Rel : State Op Blk σ π → State Op Blk σ π → Prop
  /-- Relates the states in which `op` was entered and is left. -/
  Own : Op → State Op Blk σ π → State Op Blk σ π → Prop
  /-- May the value be asked for? -/
  Pre : State Op Blk σ π → Value Op Blk → Prop
  /-- The value was answered. -/
  Ans : State Op Blk σ π → Value Op Blk → Answer π → Prop
  /-- The operation is being evaluated, and its code is running. -/
  Within : State Op Blk σ π → Op → Prop
  /-- The answers of the operation are not to be cached. -/
  Uncached : State Op Blk σ π → Op → Prop
  /-- The operation was hashed. -/
  Key : State Op Blk σ π → Op → HashCode → Prop
  /-- The first candidates of the bucket were examined for the operation, and none matched. -/
  Missed : State Op Blk σ π → Op → HashCode → ℕ → Prop
  /-- The operation was compared with the one of an entry. -/
  Compared : State Op Blk σ π → Op → Op → EvalResult Bool → Prop
  /-- The candidate at a position of the bucket, an entry, matched the operation. -/
  Found : State Op Blk σ π → Op → HashCode → (position entry : ℕ) → Prop
  /-- The entry holds answers of the operation. -/
  Kept : State Op Blk σ π → Op → (entry : ℕ) → Prop
  /-- The operation is to be evaluated, after the lookup if there was one. -/
  Ready : State Op Blk σ π → Op → Option CacheLookup → Prop
  /-- The operation was evaluated. -/
  Results : State Op Blk σ π → Op → List (Answer π) → Prop
  /-- A result of the operation may be answered so. -/
  Out : State Op Blk σ π → Op → (idx : ℕ) → Answer π → Prop
  /-- The value has no memoized answer, and is to be computed. -/
  Unanswered : State Op Blk σ π → Value Op Blk → Prop := fun _ _ => True
  /-- The operation can be cached, and is to be looked up. -/
  Eligible : State Op Blk σ π → Op → Prop := fun _ _ => True
  /-- `evaluate` was not called yet. -/
  Unevaluated : State Op Blk σ π → Op → Prop := fun _ _ => True
  /-- `evaluate` is running. -/
  Running : State Op Blk σ π → Op → Prop := fun _ _ => True
  /-- `evaluate` has returned the answers. -/
  Evaluated : State Op Blk σ π → Op → List (Answer π) → Prop := fun _ _ _ => True
  /-- The answers are not kept. -/
  Unstored : State Op Blk σ π → Op → List (Answer π) → Prop := fun _ _ _ => True
  /-- The code for the operation ends, with an answer for a result. -/
  Done : State Op Blk σ π → Op → (idx : ℕ) → Answer π → Prop := Out

/-- Of the first `n` results of `op` those are memoized whose answers, which may come from a slot,
are completed. -/
def SiblingsMemoized (s : State Op Blk σ π) (op : Op) (l : List (Answer π)) (n : ℕ) : Prop :=
  ∀ (i : ℕ) (a : Answer π), i < n → l[i]? = some a → ∃ b : Answer π,
    (b = a ∨ ∃ (e : ℕ) (entry : CacheEntry Op π), s.cache.arena[e]? = some entry ∧
      entry.results[i]? = some (some b)) ∧
    (b.isCompleted = true → ∃ c, s.memo (.result op i) = some c)

theorem SiblingsMemoized.memoize {s : State Op Blk σ π} {op : Op} {l : List (Answer π)} {n : ℕ}
    (h : SiblingsMemoized s op l n) (P : Program Op Blk) (v : Value Op Blk) (a : Answer π) :
    SiblingsMemoized ((s.memoize P v a).note (.memoized v a)) op l n := by
  intro i b hi hb
  obtain ⟨c, hc, hmemo⟩ := h i b hi hb
  refine ⟨c, hc, fun hcomp => ?_⟩
  simp only [State.memo, State.note, State.memoize, DenseMap.lookup_insert']
  split
  · exact ⟨a, rfl⟩
  · exact hmemo hcomp

theorem SiblingsMemoized.succ {s : State Op Blk σ π} {op : Op} {l : List (Answer π)} {n : ℕ}
    (h : SiblingsMemoized s op l n) {a b : Answer π} (ha : l[n]? = some a)
    (hb : b = a ∨ ∃ (e : ℕ) (entry : CacheEntry Op π), s.cache.arena[e]? = some entry ∧
      entry.results[n]? = some (some b))
    (hmemo : b.isCompleted = true → ∃ c, s.memo (.result op n) = some c) :
    SiblingsMemoized s op l (n + 1) := by
  intro i c hi hc
  rcases Nat.lt_succ_iff_lt_or_eq.mp hi with hi | rfl
  · exact h i c hi hc
  · obtain rfl := Option.some.inj (ha.symm.trans hc)
    exact ⟨b, hb, hmemo⟩

end

namespace Theory

variable (T : Theory Op Blk σ π)

/-- What a nested query does. -/
structure Moves (s s' : State Op Blk σ π) : Prop where
  start : T.Inv s
  inv : T.Inv s'
  rel : T.Rel s s'
  continues : Continues s s'

/-- What the code for an operation being evaluated does. -/
structure Does (op : Op) (s s' : State Op Blk σ π) : Prop where
  inv : T.Inv s'
  own : T.Own op s s'
  within : T.Within s' op
  continues : Continues s s'

/-- `ask` answers nested queries as the theory claims, while `active` is being evaluated. -/
structure Asks (ask : Value Op Blk → EngineM Op Blk σ π (Answer π)) (active : Finset Op) :
    Prop where
  continuing : ∀ v, Continuing (ask v)
  spec : ∀ v s, T.Inv s → T.Pre s v → s.engine.active = active →
    wp T.contract (ask v) s fun a s' => T.Inv s' ∧ T.Rel s s' ∧ T.Ans s' v a

/-- A write that may happen inside a nested query. -/
def Allows (s t : State Op Blk σ π) : Prop :=
  T.contract.rely t → T.contract.guar t ∧ T.Inv t ∧ T.Rel s t

/-- A write of the code for `op`, after which `P` holds. -/
def AllowsOwn (op : Op) (s t : State Op Blk σ π) (P : Prop) : Prop :=
  T.contract.rely t → T.contract.guar t ∧ T.Inv t ∧ T.Own op s t ∧ T.Within t op ∧ P

/-- What is known of a lookup that found nothing for result `idx`, when it has just ended. -/
def Looked (s : State Op Blk σ π) (op : Op) (idx : ℕ) : Option CacheLookup → Prop
  | none => T.Uncached s op
  | some ⟨key, none, n⟩ => T.Missed s op key n ∧ (s.bucket key)[n]? = none
  | some ⟨key, some e, n⟩ => T.Found s op key n e ∧
      ∃ entry, s.cache.arena[e]? = some entry ∧ entry.results[idx]? = some none

/-- What is known of a lookup from then on. -/
def Cached (s : State Op Blk σ π) (op : Op) : CacheLookup → Prop
  | ⟨key, none, n⟩ => T.Missed s op key n
  | ⟨_, some e, _⟩ => T.Kept s op e

/-- What is known of the answers that `store` kept in an entry, or did not keep. -/
def Stored (s : State Op Blk σ π) (op : Op) (l : List (Answer π)) : Option ℕ → Prop
  | none => T.Unstored s op l
  | some e => T.Kept s op e

/-- A theory that holds: every place of the code keeps it. -/
structure Sound [DecidableEq Op] [DecidableEq Blk] [Fintype Op] (E : Setup Op Blk σ π) : Prop where
  -- The relations.
  rel_refl : ∀ s, T.Rel s s
  rel_trans : ∀ a b c, T.Rel a b → T.Rel b c → T.Rel a c
  own_of_rel : ∀ op s s', T.Rel s s' → T.Own op s s'
  own_trans : ∀ op a b c, T.Own op a b → T.Own op b c → T.Own op a c
  own_active : ∀ op s s', T.Own op s s' → s'.engine.active = s.engine.active
  -- What is known locally stays true while nested queries run.
  within_stable : ∀ s s' op, T.Moves s s' → T.Within s op → T.Within s' op
  unevaluated_stable : ∀ s s' op, T.Moves s s' → T.Within s op → T.Unevaluated s op →
    T.Unevaluated s' op
  running_stable : ∀ s s' op, T.Moves s s' → T.Within s op → T.Running s op → T.Running s' op
  missed_stable : ∀ s s' op key n, T.Moves s s' → T.Within s op → T.Missed s op key n →
    T.Missed s' op key n
  found_stable : ∀ s s' op key n e, T.Moves s s' → T.Within s op → T.Found s op key n e →
    T.Found s' op key n e
  kept_stable : ∀ s s' op e, T.Moves s s' → T.Within s op → T.Kept s op e → T.Kept s' op e
  results_stable : ∀ s s' op l, T.Inv s → T.Does op s s' → T.Results s op l → T.Results s' op l
  -- Values that need no evaluation.
  unanswered : ∀ s v, T.Inv s → T.Pre s v → s.memo v = none → T.Unanswered s v
  memo_hit : ∀ s v a, T.Inv s → T.Pre s v → s.memo v = some a → T.Ans s v a
  memo_add : ∀ s s' v a, T.Pre s v → T.Moves s s' → T.Ans s' v a → a.isCompleted = true →
    s'.memo v = none → T.Allows s' ((s'.memoize E.program v a).note (.memoized v a))
  ans_memoized : ∀ s v a, T.Moves s ((s.memoize E.program v a).note (.memoized v a)) →
    T.Ans s v a → T.Ans ((s.memoize E.program v a).note (.memoized v a)) v a
  arg : ∀ s b i, T.Inv s → T.Pre s (.arg b i) →
    T.Ans s (.arg b i) ((s.engine.bindings.lookup (b, i)).getD .unknown)
  invalid : ∀ s op i, T.Inv s → T.Pre s (.result op i) → E.program.numResults op ≤ i →
    T.contract.abort .invalidValue
  constant : ∀ s op i, E.models.op op = none → T.Inv s → T.Pre s (.result op i) →
    i < E.program.numResults op →
    wp T.contract (evaluateConstant E op) s fun r s' =>
      T.Inv s' ∧ T.Rel s s' ∧ T.Ans s' (.result op i) (.completed r.1)
  -- The cycle guard.
  cycle : ∀ s op i model, E.models.op op = some model → T.Inv s → T.Pre s (.result op i) →
    i < E.program.numResults op → op ∈ s.engine.active → T.Ans s (.result op i) (.signal .cycle)
  enter : ∀ s op i model, E.models.op op = some model → T.Inv s → T.Pre s (.result op i) →
    T.Unanswered s (.result op i) → i < E.program.numResults op → op ∉ s.engine.active →
    T.contract.rely ((s.enter op).note (.entered op)) →
    T.contract.guar ((s.enter op).note (.entered op)) ∧ T.Inv ((s.enter op).note (.entered op)) ∧
      T.Within ((s.enter op).note (.entered op)) op
  leave : ∀ s s' op i a, T.Inv s → T.Pre s (.result op i) → i < E.program.numResults op →
    op ∉ s.engine.active → T.Does op ((s.enter op).note (.entered op)) s' → T.Done s' op i a →
    T.contract.rely ((s'.leave op).note (.left op)) →
    T.contract.guar ((s'.leave op).note (.left op)) ∧ T.Inv ((s'.leave op).note (.left op)) ∧
      T.Rel s ((s'.leave op).note (.left op)) ∧
      T.Ans ((s'.leave op).note (.left op)) (.result op i) a
  -- The lookup.
  cacheable : ∀ s op model ask, E.models.op op = some model → T.Asks ask s.engine.active →
    T.Inv s → T.Within s op → s.log.head? = some (.entered op) →
    wp T.contract (runScope E ask model.isCacheable) s fun r s' =>
      T.Inv s' ∧ T.Rel s s' ∧ (r = .completed false → T.Uncached s' op) ∧
        (r = .completed true → T.Eligible s' op) ∧ (∀ b, r = .completed b → T.Unevaluated s' op) ∧
        ∀ st, r = .signal st → ∀ i < E.program.numResults op, T.Done s' op i (.signal st)
  hash : ∀ s op model ask, E.models.op op = some model → T.Asks ask s.engine.active →
    T.Inv s → T.Within s op → T.Eligible s op → T.Unevaluated s op →
    wp T.contract (runScope E ask model.getHash) s fun r s' =>
      T.Inv s' ∧ T.Rel s s' ∧ (∀ key, r = .completed key → T.Key s' op key) ∧
        ∀ st, r = .signal st → ∀ i < E.program.numResults op, T.Done s' op i (.signal st)
  unevaluated_search : ∀ s op e, (∃ key, e = .searching op key) ∨
    (∃ key n verdict, e = .examined op key n verdict) → T.Unevaluated s op →
      T.Unevaluated (s.note e) op
  searching : ∀ s op key, T.Inv s → T.Within s op → T.Key s op key →
    T.AllowsOwn op s (s.note (.searching op key)) (T.Missed (s.note (.searching op key)) op key 0)
  candidate_range : ∀ s key (n e : ℕ), T.Inv s → (s.bucket key)[n]? = some e →
    s.cache.arena.length ≤ e → T.contract.abort .outOfRange
  scan_length : ∀ s op key n, T.Inv s → T.Missed s op key n → Fintype.card Op < n →
    T.contract.abort .outOfFuel
  own : ∀ s op key (n e : ℕ) entry, T.Inv s → T.Within s op → T.Missed s op key n →
    (s.bucket key)[n]? = some e → s.cache.arena[e]? = some entry → entry.op = op →
    T.AllowsOwn op s (s.note (.examined op key n .own))
      (T.Found (s.note (.examined op key n .own)) op key n e)
  shape : ∀ s op key (n e : ℕ) entry, T.Inv s → T.Within s op → T.Missed s op key n →
    (s.bucket key)[n]? = some e → s.cache.arena[e]? = some entry → entry.op ≠ op →
    entry.results.length ≠ E.program.numResults op →
    T.AllowsOwn op s (s.note (.examined op key n .otherShape))
      (T.Missed (s.note (.examined op key n .otherShape)) op key (n + 1))
  equivalent : ∀ s op key (n e : ℕ) entry model ask, E.models.op op = some model →
    T.Asks ask s.engine.active → T.Inv s → T.Within s op → T.Missed s op key n →
    (s.bucket key)[n]? = some e → s.cache.arena[e]? = some entry → entry.op ≠ op →
    entry.results.length = E.program.numResults op →
    wp T.contract (runScope E ask (model.isEquivalentTo entry.op)) s fun r s' =>
      T.Inv s' ∧ T.Rel s s' ∧ T.Compared s' op entry.op r
  skipped : ∀ s op key (n e : ℕ) entry st, T.Inv s → T.Within s op → T.Missed s op key n →
    (s.bucket key)[n]? = some e → s.cache.arena[e]? = some entry → entry.op ≠ op →
    entry.results.length = E.program.numResults op → T.Compared s op entry.op (.signal st) →
    T.AllowsOwn op s (s.note (.examined op key n (.skipped st)))
      (T.Missed (s.note (.examined op key n (.skipped st))) op key (n + 1))
  different : ∀ s op key (n e : ℕ) entry, T.Inv s → T.Within s op → T.Missed s op key n →
    (s.bucket key)[n]? = some e → s.cache.arena[e]? = some entry → entry.op ≠ op →
    entry.results.length = E.program.numResults op → T.Compared s op entry.op (.completed false) →
    T.AllowsOwn op s (s.note (.examined op key n (.compared false)))
      (T.Missed (s.note (.examined op key n (.compared false))) op key (n + 1))
  matching : ∀ s op key (n e : ℕ) entry, T.Inv s → T.Within s op → T.Missed s op key n →
    (s.bucket key)[n]? = some e → s.cache.arena[e]? = some entry → entry.op ≠ op →
    entry.results.length = E.program.numResults op → T.Compared s op entry.op (.completed true) →
    T.AllowsOwn op s (s.note (.examined op key n (.compared true)))
      (T.Found (s.note (.examined op key n (.compared true))) op key n e)
  -- The evaluation.
  exhausted : ∀ s op i cached, T.Inv s → T.Within s op → T.Unevaluated s op →
    i < E.program.numResults op → T.Looked s op i cached → s.engine.remaining = 0 →
      T.Done s op i (.signal .exhausted)
  charge : ∀ s op i cached, T.Inv s → T.Within s op → T.Unevaluated s op →
    i < E.program.numResults op → T.Looked s op i cached → s.engine.remaining ≠ 0 →
    T.contract.rely (s.charge.note .charged) → T.contract.guar (s.charge.note .charged) ∧
      T.AllowsOwn op s ((s.charge.note .charged).note (.evaluating op))
        (T.Ready ((s.charge.note .charged).note (.evaluating op)) op cached ∧
          T.Running ((s.charge.note .charged).note (.evaluating op)) op)
  evaluates : ∀ s op model ask cached, E.models.op op = some model → T.Asks ask s.engine.active →
    T.Inv s → T.Within s op → T.Ready s op cached →
    wp T.contract (runScope E ask model.evaluate) s fun l s' =>
      T.Inv s' ∧ T.Rel s s' ∧ T.Results s' op l ∧ T.Ready s' op cached
  count : ∀ s op l, T.Inv s → T.Within s op → T.Results s op l →
    l.length ≠ E.program.numResults op → T.contract.abort .resultCount
  evaluated : ∀ s op l cached, T.Inv s → T.Within s op → T.Running s op → T.Ready s op cached →
    T.Results s op l → l.length = E.program.numResults op →
      T.AllowsOwn op s (s.note (.evaluated op l))
      (T.Ready (s.note (.evaluated op l)) op cached ∧ T.Evaluated (s.note (.evaluated op l)) op l)
  evaluated_stable : ∀ s s' op l, T.Inv s → T.Does op s s' → T.Evaluated s op l →
    T.Evaluated s' op l
  ready_stable : ∀ s s' op cached, T.Moves s s' → T.Within s op → T.Ready s op cached →
    T.Ready s' op cached
  ready : ∀ s op cached l, T.Inv s → T.Within s op → s.log.head? = some (.evaluated op l) →
    T.Ready s op (some cached) → T.Cached s op cached
  -- What is kept.
  reuse : ∀ s op key n e l, T.Inv s → T.Within s op → T.Found s op key n e → T.Results s op l →
    T.Allows s (s.note (.reused op key n e))
  fill : ∀ s₀ s op e l, T.Inv s → T.Within s op → T.Kept s op e → T.Results s op l →
    l.length = E.program.numResults op → l.any Answer.isKnown = true →
    s₀.engine.freezes = 0 → T.Own op s₀ s →
    wp T.contract (fill E e l) s fun _ s' => T.Inv s' ∧ T.Rel s s'
  append : ∀ s₀ s op key (n : ℕ) l, T.Inv s → T.Within s op → T.Missed s op key n →
    (s.bucket key)[n]? = none → T.Results s op l → l.length = E.program.numResults op →
    l.any Answer.isKnown = true → s₀.engine.freezes = 0 → T.Own op s₀ s →
    wp T.contract (appendEntry E op key l) s
      fun e s' => T.Inv s' ∧ T.Own op s s' ∧ T.Within s' op ∧ T.Kept s' op e
  kept : ∀ s op key n e, T.Inv s → T.Within s op → T.Found s op key n e → T.Kept s op e
  kept_range : ∀ s op (e i : ℕ), T.Inv s → T.Kept s op e → i < E.program.numResults op →
    (∀ entry, s.cache.arena[e]? = some entry → entry.results.length ≤ i) →
    T.contract.abort .outOfRange
  kept_slot : ∀ s op (e : ℕ) entry (i : ℕ) a, T.Inv s → T.Within s op → T.Kept s op e →
    s.cache.arena[e]? = some entry → entry.results[i]? = some (some a) → T.Out s op i a
  unstored : ∀ s op l cached, T.contract.rely s → T.Inv s → T.Within s op → T.Ready s op cached →
    s.log.head? = some (.evaluated op l) →
    (cached ≠ none → s.engine.freezes ≠ 0 ∨ l.any Answer.isKnown = false) → T.Unstored s op l
  unstored_stable : ∀ s s' op l, T.Moves s s' → s'.cache = s.cache → T.Within s op →
    T.Unstored s op l → T.Unstored s' op l
  result : ∀ s op l (i : ℕ) a, T.Inv s → T.Within s op → T.Results s op l → l[i]? = some a →
    (T.Unstored s op l ∨ ∃ (e : ℕ) (entry : CacheEntry Op π), T.Kept s op e ∧
      s.cache.arena[e]? = some entry ∧ entry.results[i]? = some none) → T.Out s op i a
  memo_own : ∀ s op i a, T.Inv s → T.Within s op → T.Out s op i a → i < E.program.numResults op →
    a.isCompleted = true → s.memo (.result op i) = none →
    T.Allows s ((s.memoize E.program (.result op i) a).note (.memoized (.result op i) a))
  -- The end.
  hit : ∀ s op key n (e : ℕ) entry (i : ℕ) a, T.Inv s → T.Within s op → T.Unevaluated s op →
    T.Found s op key n e → s.cache.arena[e]? = some entry → entry.results[i]? = some (some a) →
      T.Done s op i a
  finish : ∀ s op l i a, T.Inv s → T.Within s op → T.Evaluated s op l →
    l.length = E.program.numResults op → SiblingsMemoized s op l l.length → T.Out s op i a →
    T.Done s op i a

variable {T} {E : Setup Op Blk σ π}

/-! ## Bookkeeping -/

section

variable [DecidableEq Op] [DecidableEq Blk] [Fintype Op]

theorem Sound.does_refl (h : T.Sound E) {op : Op} {s : State Op Blk σ π} (hs : T.Inv s)
    (hw : T.Within s op) : T.Does op s s :=
  ⟨hs, h.own_of_rel op s s (h.rel_refl s), hw, .refl s⟩

theorem Sound.does_trans (h : T.Sound E) {op : Op} {a b c : State Op Blk σ π}
    (h₁ : T.Does op a b) (h₂ : T.Does op b c) : T.Does op a c :=
  ⟨h₂.inv, h.own_trans op a b c h₁.own h₂.own, h₂.within, h₁.continues.trans h₂.continues⟩

/-- A nested query is part of what the code for `op` does. -/
theorem Sound.does_of_moves (h : T.Sound E) {op : Op} {s s' : State Op Blk σ π}
    (hm : T.Moves s s') (hw : T.Within s op) : T.Does op s s' :=
  ⟨hm.inv, h.own_of_rel op s s' hm.rel, h.within_stable s s' op hm hw, hm.continues⟩

end

theorem AllowsOwn.does {op : Op} {s t : State Op Blk σ π} {P : Prop} (h : T.AllowsOwn op s t P)
    (hr : T.contract.rely t) (hc : Continues s t) : T.Does op s t :=
  ⟨(h hr).2.1, (h hr).2.2.1, (h hr).2.2.2.1, hc⟩

/-- What may happen inside a nested query may happen in the code for `op`. -/
theorem AllowsOwn.of_allows {op : Op} {s t : State Op Blk σ π} {P : Prop} (h : T.Allows s t)
    (hown : T.Rel s t → T.Own op s t) (hw : T.Within t op) (hP : P) :
    T.AllowsOwn op s t P := fun hr =>
  ⟨(h hr).1, (h hr).2.1, hown (h hr).2.2, hw, hP⟩

/-- Run a method of a model, or anything else that continues the query and keeps `Rel`. -/
theorem wp_moves {α : Type} {m : EngineM Op Blk σ π α} {s : State Op Blk σ π}
    {Q : α → State Op Blk σ π → Prop} {P : α → State Op Blk σ π → Prop} (hs : T.Inv s)
    (hc : Continuing m)
    (h : wp T.contract m s fun a s' => T.Inv s' ∧ T.Rel s s' ∧ P a s')
    (hq : ∀ a s', T.Moves s s' → P a s' → Q a s') : wp T.contract m s Q :=
  wp_mono (wp_stepsAt Continues.refl (fun _ _ _ => Continues.trans) (hc s) h)
    fun a s' hs' => hq a s' ⟨hs, hs'.1.1, hs'.1.2.1, hs'.2⟩ hs'.1.2.2

/-- Write an event of the code for `op`. -/
theorem wp_noteOwn {op : Op} {e : Event Op Blk π} {s : State Op Blk σ π} {P : Prop}
    {Q : Unit → State Op Blk σ π → Prop} (he : e ≠ .charged)
    (h : T.AllowsOwn op s (s.note e) P)
    (hq : T.Does op s (s.note e) → P → Q () (s.note e)) : wp T.contract (record e id) s Q := by
  refine wp_record fun hr => ⟨(h hr).1, hq (h.does hr ?_) (h hr).2.2.2.2⟩
  exact .noted he s

/-- Write an event that may happen inside a nested query. -/
theorem wp_note {e : Event Op Blk π} {s : State Op Blk σ π}
    {Q : Unit → State Op Blk σ π → Prop} (hs : T.Inv s) (he : e ≠ .charged)
    (h : T.Allows s (s.note e)) (hq : T.Moves s (s.note e) → Q () (s.note e)) :
    wp T.contract (record e id) s Q := by
  refine wp_record fun hr => ⟨(h hr).1, hq ⟨hs, (h hr).2.1, (h hr).2.2, ?_⟩⟩
  exact .noted he s

variable [DecidableEq Op] [DecidableEq Blk]

/-- A method keeps what each of its queries and each of its own writes keeps. -/
theorem wp_runScope {ask : Value Op Blk → EngineM Op Blk σ π (Answer π)} {s : State Op Blk σ π}
    (hrefl : ∀ a, T.Rel a a) (htrans : ∀ a b c, T.Rel a b → T.Rel b c → T.Rel a c)
    (hactive : ∀ a b, T.Rel a b → b.engine.active = a.engine.active)
    (hpre : ∀ t v, T.Inv t → T.Pre t v)
    (hstop : ∀ x, x = .thawOrder ∨ x = .bindArity ∨ x = .boundTwice ∨ x = .unbindOrder →
      T.contract.abort x)
    (hwrite : ∀ t u, T.Inv t → ScopeWrite E t u → T.Allows t u) (ha : T.Asks ask s.engine.active)
    (hs : T.Inv s) {α : Type} (p : ScopeM Op Blk σ π α) :
    wp T.contract (runScope E ask p) s fun _ t => T.Inv t ∧ T.Rel s t := by
  refine wp_mono
    (Prog.wp_run (J := fun t => T.Inv t ∧ t.engine.active = s.engine.active) (K := T.Rel)
    hrefl htrans ?_ p s ⟨hs, rfl⟩) fun _ t ht => ⟨ht.1.1, ht.2⟩
  rintro i t ⟨ht, hact⟩
  have write : ∀ {u : State Op Blk σ π}, ScopeWrite E t u → T.contract.rely u →
      T.contract.guar u ∧ (T.Inv u ∧ u.engine.active = s.engine.active) ∧ T.Rel t u := by
    intro u hu hr
    obtain ⟨hg, hi, hrel⟩ := hwrite t u ht hu hr
    exact ⟨hg, ⟨hi, (hactive t u hrel).trans hact⟩, hrel⟩
  cases i with
  | query v =>
    refine wp_bind (wp_mono (ha.spec v t ht (hpre t v ht) hact) fun a u hu => ?_)
    refine wp_bind (wp_record fun hr => ?_)
    obtain ⟨hg, hi, hrel⟩ := hwrite u _ hu.1 (.answered v a) hr
    refine ⟨hg, wp_pure ⟨⟨hi, ?_⟩, htrans _ _ _ hu.2.1 hrel⟩⟩
    exact (hactive _ _ hrel).trans ((hactive _ _ hu.2.1).trans hact)
  | declareCost =>
    exact wp_declareCost (fun _ => ⟨⟨ht, hact⟩, hrefl t⟩) fun h hr => write (.charged h) hr
  | freezeCache => exact wp_record fun hr => write .frozen hr
  | thawCache =>
    refine wp_bind (wp_read (wp_bind (wp_require (fun _ => hstop _ (by simp)) fun h => ?_)))
    exact wp_record fun hr => write (.thawed (by simpa using h)) hr
  | bind block args =>
    refine wp_bind (wp_read (wp_bind (wp_require (fun _ => hstop _ (by simp)) fun harity => ?_)))
    refine wp_bind (wp_require (fun _ => hstop _ (by simp)) fun hfree => ?_)
    refine wp_record fun hr =>
      write (.bound block args (by simpa using harity) fun frame hframe => ?_) hr
    simpa using List.all_eq_true.mp hfree frame hframe
  | unbind block =>
    refine wp_bind (wp_read ?_)
    cases hlast : t.engine.frames.getLast? with
    | none => exact wp_stop (hstop _ (by simp))
    | some frame =>
      refine wp_bind (wp_require (fun _ => hstop _ (by simp)) fun hblock => ?_)
      obtain rfl : frame.block = block := by simpa using hblock
      exact wp_record fun hr => write (.unbound frame hlast) hr
  | allocate payload =>
    refine wp_bind (wp_read (wp_bind (wp_record fun hr => ?_)))
    obtain ⟨hg, hJ⟩ := write (.allocated payload) hr
    exact ⟨hg, wp_pure hJ⟩
  | getWorld => exact wp_bind (wp_read (wp_pure ⟨⟨ht, hact⟩, hrefl t⟩))
  | setWorld w => exact wp_record fun hr => write (.worldChanged w) hr

/-- A constant is converted into the cache, or for the query. -/
theorem wp_evaluateConstant {op : Op} {s : State Op Blk σ π} (hs : T.Inv s) (hrefl : T.Rel s s)
    (hstore : ∀ attr type (payload : Option π),
      let value := payload.map (newStorage E.mem s.heap .cache)
      T.Allows s ((s.storeConstant (attr, type) value).note (.constantStored attr type value)))
    (hwrite : ∀ t, ScopeWrite E s t → T.Allows s t) :
    wp T.contract (evaluateConstant E op) s fun _ t => T.Inv t ∧ T.Rel s t :=
  MlirInterpreter.wp_evaluateConstant (Q := fun _ t => T.Inv t ∧ T.Rel s t) (fun _ => ⟨hs, hrefl⟩)
    (fun _ _ _ _ _ _ _ => ⟨hs, hrefl⟩) (fun attr model _ _ _ => hstore attr _ model.toEvalValue)
    fun _ _ payload _ _ _ => hwrite _ (.allocated payload)

/-! ## The lookup -/

variable [Fintype Op]

section Run

variable {ask : Value Op Blk → EngineM Op Blk σ π (Answer π)}

/-- A search of a bucket for `op` ends at its end or at a match. -/
theorem Sound.wp_findEquivalent (h : T.Sound E) {op : Op} {model : OpModel Op Blk σ π}
    (hm : E.models.op op = some model) {key : HashCode} {fuel next : ℕ}
    {s : State Op Blk σ π} (ha : T.Asks ask s.engine.active)
    (hf : Fintype.card Op < fuel + next) (hs : T.Inv s) (hw : T.Within s op)
    (hn : T.Missed s op key next) :
    wp T.contract (findEquivalent E ask op model key fuel next) s fun r s' =>
      T.Does op s s' ∧ (T.Unevaluated s op → T.Unevaluated s' op) ∧ match r.1 with
        | none => T.Missed s' op key r.2 ∧ (s'.bucket key)[r.2]? = none
        | some entry => T.Found s' op key r.2 entry := by
  induction fuel generalizing next s with
  | zero => exact wp_stop (h.scan_length s op key next hs hn (by omega))
  | succ fuel ih =>
    -- The rest of the search, after the candidate at `next` was found not to match.
    have rest : ∀ t, T.Does op s t → (T.Unevaluated s op → T.Unevaluated t op) →
        T.Missed t op key (next + 1) →
        wp T.contract (findEquivalent E ask op model key fuel (next + 1)) t fun r s' =>
          T.Does op s s' ∧ (T.Unevaluated s op → T.Unevaluated s' op) ∧ match r.1 with
            | none => T.Missed s' op key r.2 ∧ (s'.bucket key)[r.2]? = none
            | some entry => T.Found s' op key r.2 entry := by
      intro t ht hun hmiss
      have ha' : T.Asks ask t.engine.active := by rwa [h.own_active op s t ht.own]
      refine wp_mono (ih ha' (by omega) ht.inv ht.within hmiss) fun r s' hr => ?_
      exact ⟨h.does_trans ht hr.1, fun h₀ => hr.2.1 (hun h₀), hr.2.2⟩
    have examined : ∀ t verdict, T.Unevaluated t op →
        T.Unevaluated (t.note (.examined op key next verdict)) op := fun t verdict =>
      h.unevaluated_search t op _ (Or.inr ⟨key, next, verdict, rfl⟩)
    refine wp_bind (wp_read ?_)
    cases hb : (s.bucket key)[next]? with
    | none => exact wp_pure ⟨h.does_refl hs hw, id, hn, hb⟩
    | some entry =>
      refine wp_bind (wp_readEntry (fun he => ?_) fun e he => ?_)
      · exact h.candidate_range s key next entry hs hb (List.getElem?_eq_none_iff.mp he)
      by_cases hop : e.op = op
      · rw [if_pos hop]
        refine wp_bind (wp_noteOwn (by simp) (h.own s op key next entry e hs hw hn hb he hop) ?_)
        exact fun ht hf' => wp_pure ⟨ht, examined s _, hf'⟩
      rw [if_neg hop]
      by_cases hlen : e.results.length = E.program.numResults op
      · rw [if_neg (not_not.mpr hlen)]
        refine wp_bind (wp_moves hs (continuing_runScope ha.continuing _)
          (h.equivalent s op key next entry e model ask hm ha hs hw hn hb he hop hlen) ?_)
        intro r t ht hcmp
        have hd := h.does_of_moves ht hw
        have hun := h.unevaluated_stable s t op ht hw
        have hn' := h.missed_stable s t op key next ht hw hn
        have hb' := ht.continues.cache.getElem? hb
        obtain ⟨e', he', hx⟩ := ht.continues.cache.arena entry e he
        have hop' : e'.op ≠ op := hx.op ▸ hop
        have hlen' := hx.length.trans hlen
        rw [← hx.op] at hcmp
        rcases r with (_ | _) | st
        · exact wp_bind (wp_noteOwn (by simp) (h.different t op key next entry e' ht.inv hd.within
            hn' hb' he' hop' hlen' hcmp) fun hd' hn'' => rest _ (h.does_trans hd hd')
              (fun h₀ => examined t _ (hun h₀)) hn'')
        · exact wp_bind (wp_noteOwn (by simp) (h.matching t op key next entry e' ht.inv hd.within
            hn' hb' he' hop' hlen' hcmp) fun hd' hf' => wp_pure ⟨h.does_trans hd hd',
              fun h₀ => examined t _ (hun h₀), hf'⟩)
        · exact wp_bind (wp_noteOwn (by simp) (h.skipped t op key next entry e' st ht.inv hd.within
            hn' hb' he' hop' hlen' hcmp) fun hd' hn'' => rest _ (h.does_trans hd hd')
              (fun h₀ => examined t _ (hun h₀)) hn'')
      · rw [if_pos hlen]
        exact wp_bind (wp_noteOwn (by simp) (h.shape s op key next entry e hs hw hn hb he hop hlen)
          fun hd hn' => rest _ hd (examined s _) hn')

/-- A lookup ends with a signal, or at the end of the bucket, or at a match. -/
theorem Sound.wp_lookup (h : T.Sound E) {op : Op} {model : OpModel Op Blk σ π}
    (hm : E.models.op op = some model) {fuel : ℕ} {s : State Op Blk σ π}
    (ha : T.Asks ask s.engine.active) (hf : Fintype.card Op < fuel) (hs : T.Inv s)
    (hw : T.Within s op) (he : T.Eligible s op) (hun : T.Unevaluated s op) :
    wp T.contract (lookup E ask fuel op model) s fun r s' =>
      T.Does op s s' ∧ T.Unevaluated s' op ∧ match r with
        | .signal st => ∀ i < E.program.numResults op, T.Done s' op i (.signal st)
        | .completed ⟨key, none, n⟩ => T.Missed s' op key n ∧ (s'.bucket key)[n]? = none
        | .completed ⟨key, some entry, n⟩ => T.Found s' op key n entry := by
  refine wp_bind (wp_moves hs (continuing_runScope ha.continuing _)
    (h.hash s op model ask hm ha hs hw he hun) fun r t ht hr => ?_)
  have hd := h.does_of_moves ht hw
  have hun' := h.unevaluated_stable s t op ht hw hun
  rcases r with key | st
  · refine wp_bind (wp_noteOwn (by simp) (h.searching t op key ht.inv hd.within (hr.1 key rfl)) ?_)
    intro hd' hn
    have hd'' := h.does_trans hd hd'
    have ha' : T.Asks ask (t.note (.searching op key)).engine.active := by
      rwa [h.own_active op s _ hd''.own]
    refine wp_bind (wp_mono (h.wp_findEquivalent hm ha' (by omega) hd''.inv hd''.within hn) ?_)
    have hun'' := h.unevaluated_search t op _ (Or.inl ⟨key, rfl⟩) hun'
    rintro ⟨_ | entry, n⟩ u hu
    · exact wp_pure ⟨h.does_trans hd'' hu.1, hu.2.1 hun'', hu.2.2⟩
    · exact wp_pure ⟨h.does_trans hd'' hu.1, hu.2.1 hun'', hu.2.2⟩
  · exact wp_pure ⟨hd, hun', hr.2 st rfl⟩

/-! ## The evaluation -/

omit [DecidableEq Op] [DecidableEq Blk] [Fintype Op] in
theorem continuing_appendEntry (op : Op) (key : HashCode) (l : List (Answer π)) :
    Continuing (appendEntry E op key l) :=
  Steps.read_bind fun s => (StepsAt.write (.append op _ _ s)).bind fun _ s' _ =>
    (continuing_fill _ l s').bind fun _ _ _ => StepsAt.pure _ _

/-- `insert` resumes the search and keeps the answers in what it finds, or in a new entry. -/
theorem Sound.wp_insert (h : T.Sound E) {op : Op} {model : OpModel Op Blk σ π}
    (hm : E.models.op op = some model) {fuel : ℕ} {key : HashCode} {n : ℕ}
    {l : List (Answer π)} {s : State Op Blk σ π} (ha : T.Asks ask s.engine.active)
    (hf : Fintype.card Op < fuel) (hs : T.Inv s) (hw : T.Within s op) (hn : T.Missed s op key n)
    (hl : T.Results s op l) (hlen : l.length = E.program.numResults op)
    (hk : l.any Answer.isKnown = true) (hfr : s.engine.freezes = 0) :
    wp T.contract (insert E ask fuel op model ⟨key, none, n⟩ l) s fun e s' =>
      T.Does op s s' ∧ T.Kept s' op e := by
  refine wp_bind (wp_mono (h.wp_findEquivalent hm ha (by omega) hs hw hn) ?_)
  rintro ⟨_ | entry, m⟩ t ⟨ht, -, hfound⟩
  · refine wp_mono (wp_stepsAt Continues.refl (fun _ _ _ => Continues.trans)
      (continuing_appendEntry op key l t)
        (h.append s t op key m l ht.inv ht.within hfound.1 hfound.2
        (h.results_stable s t op l hs ht hl) hlen hk hfr ht.own)) ?_
    rintro e u ⟨⟨hinv, hown, hwithin, hkept⟩, hcont⟩
    exact ⟨h.does_trans ht ⟨hinv, hown, hwithin, hcont⟩, hkept⟩
  · have hl' := h.results_stable s t op l hs ht hl
    refine wp_bind (wp_note ht.inv (by simp)
      (h.reuse t op key m entry l ht.inv ht.within hfound hl') fun hu => ?_)
    have hd := h.does_of_moves hu ht.within
    have hkept := h.kept _ op key m entry hu.inv hd.within
      (h.found_stable _ _ op key m entry hu ht.within hfound)
    refine wp_bind (wp_moves hu.inv (continuing_fill entry l) (P := fun _ _ => True)
      (wp_mono (h.fill s _ op entry l hu.inv hd.within hkept
        (h.results_stable t _ op l ht.inv hd hl') hlen hk hfr (h.does_trans ht hd).own)
        fun _ _ h' => ⟨h'.1, h'.2, trivial⟩) ?_)
    intro _ u hu' _
    have hd' := h.does_of_moves hu' hd.within
    exact wp_pure ⟨h.does_trans ht (h.does_trans hd hd'),
      h.kept_stable _ _ op entry hu' hd.within hkept⟩

/-- The answers of an evaluation are kept, or not. -/
theorem Sound.wp_store (h : T.Sound E) {op : Op} {model : OpModel Op Blk σ π}
    (hm : E.models.op op = some model) {fuel : ℕ} {cached : Option CacheLookup}
    {l : List (Answer π)} {s : State Op Blk σ π} (ha : T.Asks ask s.engine.active)
    (hf : Fintype.card Op < fuel) (hr : T.contract.rely s) (hs : T.Inv s) (hw : T.Within s op)
    (hc : T.Ready s op cached) (hl : T.Results s op l)
    (hlog : s.log.head? = some (.evaluated op l)) (hlen : l.length = E.program.numResults op) :
    wp T.contract (store E ask fuel op model cached l) s fun r s' =>
      T.Does op s s' ∧ T.Stored s' op l r := by
  have hun := h.unstored s op l cached hr hs hw hc hlog
  cases cached with
  | none => exact wp_pure ⟨h.does_refl hs hw, hun fun hne => absurd rfl hne⟩
  | some cached =>
    refine wp_bind (wp_read ?_)
    split
    · next hcond =>
      have hc' := h.ready s op cached l hs hw hlog hc
      obtain ⟨key, _ | entry, n⟩ := cached
      · refine wp_bind (wp_mono (h.wp_insert hm ha hf hs hw hc' hl hlen hcond.2 hcond.1) ?_)
        rintro e t ⟨ht, hkept⟩
        exact wp_pure ⟨ht, hkept⟩
      · refine wp_bind (wp_moves hs (continuing_fill entry l) (P := fun _ _ => True)
          (wp_mono (h.fill s s op entry l hs hw hc' hl hlen hcond.2 hcond.1
            (h.does_refl hs hw).own) fun _ _ h' => ⟨h'.1, h'.2, trivial⟩) ?_)
        intro _ u hu _
        have hd := h.does_of_moves hu hw
        exact wp_pure ⟨hd, h.kept_stable _ _ op entry hu hw hc'⟩
    · next hcond =>
      refine wp_pure ⟨h.does_refl hs hw, hun fun _ => ?_⟩
      rcases not_and_or.mp hcond with hfreeze | hknown
      · exact Or.inl hfreeze
      · exact Or.inr (by simpa using hknown)

/-- The answer of `op` for one result, after what it keeps. -/
theorem Sound.wp_canonical (h : T.Sound E) {op : Op} {idx : ℕ} {entry : Option ℕ}
    {l : List (Answer π)} {s : State Op Blk σ π} (hs : T.Inv s) (hw : T.Within s op)
    (hl : T.Results s op l) (he : T.Stored s op l entry) (hi : idx < E.program.numResults op)
    {a : Answer π} (ha : l[idx]? = some a) :
    wp T.contract (canonical entry l idx) s fun b s' => s' = s ∧ T.Out s op idx b ∧
      (b = a ∨ ∃ (e : ℕ) (entry : CacheEntry Op π), s.cache.arena[e]? = some entry ∧
        entry.results[idx]? = some (some b)) := by
  have hout := h.result s op l idx a hs hw hl ha
  rw [canonical, ha]
  cases entry with
  | none => exact wp_pure ⟨rfl, hout (Or.inl he), Or.inl rfl⟩
  | some e =>
    refine wp_bind (wp_readSlot (h.kept_range s op e idx hs he hi) fun ent slot hent hslot => ?_)
    cases slot with
    | none => exact wp_pure ⟨rfl, hout (Or.inr ⟨e, ent, he, hent, hslot⟩), Or.inl rfl⟩
    | some b =>
      exact wp_pure ⟨rfl, h.kept_slot s op e ent idx b hs hw he hent hslot,
        Or.inr ⟨e, ent, hent, hslot⟩⟩

/-- All results of `op` are memoized. -/
theorem Sound.wp_memoizeResults (h : T.Sound E) {op : Op} {entry : Option ℕ}
    {l : List (Answer π)} {idx count : ℕ} {s : State Op Blk σ π} (hs : T.Inv s)
    (hw : T.Within s op) (hl : T.Results s op l) (hlen : l.length = E.program.numResults op)
    (he : T.Stored s op l entry) (hi : idx + count = l.length)
    (hmemoized : SiblingsMemoized s op l idx) :
    wp T.contract (memoizeResults E op entry l idx count) s fun _ s' =>
      T.Does op s s' ∧ T.Stored s' op l entry ∧ SiblingsMemoized s' op l l.length := by
  induction count generalizing idx s with
  | zero => exact wp_pure ⟨h.does_refl hs hw, he, hi ▸ hmemoized⟩
  | succ count ih =>
    have hi' : idx < E.program.numResults op := by omega
    obtain ⟨a, ha⟩ : ∃ a, l[idx]? = some a := ⟨_, List.getElem?_eq_getElem (by omega)⟩
    refine wp_bind (wp_mono (h.wp_canonical hs hw hl he hi' ha) ?_)
    rintro b t ⟨rfl, hout, hfrom⟩
    by_cases hcomp : b.isCompleted = true
    · simp only [hcomp, if_true]
      refine wp_bind (wp_memoize (fun c hc => ?_) fun hmemo hr => ?_)
      · exact ih hs hw hl he (by omega) (hmemoized.succ ha hfrom fun _ => ⟨c, hc⟩)
      obtain ⟨hg, hinv, hrel⟩ := h.memo_own _ op idx b hs hw hout (by omega) hcomp hmemo hr
      have hm : T.Moves _ _ := ⟨hs, hinv, hrel, .note (by simp) rfl rfl rfl rfl rfl rfl rfl rfl⟩
      have hd := h.does_of_moves hm hw
      have he' : T.Stored ((t.memoize E.program (.result op idx) b).note
          (.memoized (.result op idx) b)) op l entry := by
        cases entry with
        | none => exact h.unstored_stable _ _ op l hm rfl hw he
        | some e => exact h.kept_stable _ _ op e hm hw he
      have hmemoized' := (hmemoized.memoize E.program (.result op idx) b).succ ha hfrom
        fun _ => ⟨b, by simp [State.memo, State.note, State.memoize]⟩
      refine ⟨hg, wp_mono (ih hinv hd.within (h.results_stable _ _ op l hs hd hl) he' (by omega)
        hmemoized') fun _ u hu => ?_⟩
      exact ⟨h.does_trans hd hu.1, hu.2⟩
    · simp only [hcomp]
      exact ih hs hw hl he (by omega) (hmemoized.succ ha hfrom fun hc => absurd hc hcomp)

/-- After the charge. -/
theorem Sound.wp_evaluateCharged (h : T.Sound E) {op : Op} {model : OpModel Op Blk σ π}
    (hm : E.models.op op = some model) {fuel idx : ℕ} {cached : Option CacheLookup}
    {s : State Op Blk σ π} (ha : T.Asks ask s.engine.active) (hf : Fintype.card Op < fuel)
    (hs : T.Inv s) (hw : T.Within s op) (hun : T.Unevaluated s op)
    (hi : idx < E.program.numResults op) (hc : T.Looked s op idx cached)
    (h0 : s.engine.remaining ≠ 0) (hr : T.contract.rely (s.charge.note .charged)) :
    T.contract.guar (s.charge.note .charged) ∧
    wp T.contract (evaluateCharged E ask fuel op idx model cached) (s.charge.note .charged)
      fun a s' => T.Does op s s' ∧ T.Does op ((s.charge.note .charged).note (.evaluating op)) s' ∧
        T.Done s' op idx a ∧ ∃ l, T.Evaluated s' op l := by
  obtain ⟨hg, hown⟩ := h.charge s op idx cached hs hw hun hi hc h0 hr
  refine ⟨hg, wp_bind (wp_record fun hr' => ?_)⟩
  have hd : T.Does op s ((s.charge.note .charged).note (.evaluating op)) :=
    hown.does hr' ((Continues.charge h0).trans (.noted (by simp) _))
  refine ⟨(hown hr').1, ?_⟩
  obtain ⟨hready, hrun⟩ := (hown hr').2.2.2.2
  have asks : ∀ t, T.Does op s t → T.Asks ask t.engine.active := fun t ht => by
    rwa [h.own_active op s t ht.own]
  refine wp_bind (wp_moves hd.inv (continuing_runScope ha.continuing _)
    (h.evaluates _ op model ask cached hm (asks _ hd) hd.inv hd.within hready) ?_)
  rintro l t₁ hm₁ ⟨hl, hready⟩
  have hd₁ := h.does_of_moves hm₁ hd.within
  refine wp_bind
    (wp_require (fun hne => h.count t₁ op l hd₁.inv hd₁.within hl (by simpa using hne))
    fun hlen => ?_)
  have hlen : l.length = E.program.numResults op := by simpa using hlen
  refine wp_bind (wp_record fun hr₂ => ?_)
  have hown₂ := h.evaluated t₁ op l cached hd₁.inv hd₁.within
    (h.running_stable _ _ op hm₁ hd.within hrun) hready hl hlen
  have hd₂ : T.Does op t₁ (t₁.note (.evaluated op l)) := hown₂.does hr₂ (.noted (by simp) t₁)
  obtain ⟨hready₂, heval₂⟩ := (hown₂ hr₂).2.2.2.2
  refine ⟨(hown₂ hr₂).1, ?_⟩
  have hl₂ := h.results_stable _ _ op l hd₁.inv hd₂ hl
  have hd₂' := h.does_trans hd (h.does_trans hd₁ hd₂)
  refine wp_bind (wp_mono (h.wp_store hm (asks _ hd₂') hf hr₂ hd₂.inv hd₂.within hready₂ hl₂ rfl
    hlen) ?_)
  rintro entry t₃ ⟨hd₃, hstored⟩
  have hl₃ := h.results_stable _ _ op l hd₂.inv hd₃ hl₂
  have heval₃ := h.evaluated_stable _ _ op l hd₂.inv hd₃ heval₂
  refine wp_bind (wp_mono (h.wp_memoizeResults hd₃.inv hd₃.within hl₃ hlen hstored (by omega)
    fun i _ hi => absurd hi (Nat.not_lt_zero i)) ?_)
  rintro _ t₄ ⟨hd₄, hstored', hmemoized⟩
  have hl₄ := h.results_stable _ _ op l hd₃.inv hd₄ hl₃
  have heval₄ := h.evaluated_stable _ _ op l hd₃.inv hd₄ heval₃
  obtain ⟨b, hb⟩ : ∃ b, l[idx]? = some b := ⟨_, List.getElem?_eq_getElem (by omega)⟩
  refine wp_mono (h.wp_canonical hd₄.inv hd₄.within hl₄ hstored' hi hb) ?_
  rintro a _ ⟨rfl, hout, -⟩
  have hd₃₄ := h.does_trans hd₃ hd₄
  exact ⟨h.does_trans hd₂' hd₃₄, h.does_trans (h.does_trans hd₁ hd₂) hd₃₄,
    h.finish _ op l idx a hd₄.inv hd₄.within heval₄ hlen hmemoized hout, l, heval₄⟩

/-- From the charge on. -/
theorem Sound.wp_evaluateOp (h : T.Sound E) {op : Op} {model : OpModel Op Blk σ π}
    (hm : E.models.op op = some model) {fuel idx : ℕ} {cached : Option CacheLookup}
    {s : State Op Blk σ π} (ha : T.Asks ask s.engine.active) (hf : Fintype.card Op < fuel)
    (hs : T.Inv s) (hw : T.Within s op) (hun : T.Unevaluated s op)
    (hi : idx < E.program.numResults op) (hc : T.Looked s op idx cached) :
    wp T.contract (evaluateOp E ask fuel op idx model cached) s fun a s' =>
      T.Does op s s' ∧ T.Done s' op idx a := by
  refine wp_bind (wp_declareCost (fun h0 => ?_) fun h0 hr => ?_)
  · exact wp_pure ⟨h.does_refl hs hw, h.exhausted s op idx cached hs hw hun hi hc h0⟩
  · obtain ⟨hg, hcharged⟩ := h.wp_evaluateCharged hm ha hf hs hw hun hi hc h0 hr
    exact ⟨hg, wp_mono hcharged fun a t ht => ⟨ht.1, ht.2.2.1⟩⟩

/-- Inside the cycle guard. -/
theorem Sound.wp_computeActive (h : T.Sound E) {op : Op} {model : OpModel Op Blk σ π}
    (hm : E.models.op op = some model) {fuel idx : ℕ} {s : State Op Blk σ π}
    (ha : T.Asks ask s.engine.active) (hf : Fintype.card Op < fuel) (hs : T.Inv s)
    (hw : T.Within s op) (he : s.log.head? = some (.entered op))
    (hi : idx < E.program.numResults op) :
    wp T.contract (computeActive E ask fuel op idx model) s fun r s' =>
      T.Does op s s' ∧ T.Done s' op idx r.1 := by
  have asks : ∀ t, T.Does op s t → T.Asks ask t.engine.active := fun t ht => by
    rwa [h.own_active op s t ht.own]
  -- The evaluation, after `s` has become `t`.
  have eval : ∀ t cached (outcome : CacheOutcome), T.Does op s t → T.Unevaluated t op →
      T.Looked t op idx cached →
      wp T.contract (evaluateOp E ask fuel op idx model cached >>= fun a => pure (a, outcome)) t
        fun r s' => T.Does op s s' ∧ T.Done s' op idx r.1 := by
    intro t cached outcome ht hun hc
    refine wp_bind (wp_mono (h.wp_evaluateOp hm (asks t ht) hf ht.inv ht.within hun hi hc) ?_)
    exact fun a u hu => wp_pure ⟨h.does_trans ht hu.1, hu.2⟩
  refine wp_bind (wp_moves hs (continuing_runScope ha.continuing _)
    (h.cacheable s op model ask hm ha hs hw he) fun r t ht hr => ?_)
  have hd := h.does_of_moves ht hw
  rcases r with (_ | _) | st
  · exact eval t none _ hd (hr.2.2.1 false rfl) (hr.1 rfl)
  · refine wp_bind (wp_mono (h.wp_lookup hm (asks t hd) hf hd.inv hd.within (hr.2.1 rfl)
      (hr.2.2.1 true rfl)) ?_)
    rintro (⟨key, _ | entry, n⟩ | st) u ⟨hu, hun, hlook⟩
    · exact eval u _ _ (h.does_trans hd hu) hun hlook
    · have hkept := h.kept u op key n entry hu.inv hu.within hlook
      refine wp_bind (wp_readSlot (h.kept_range u op entry idx hu.inv hkept hi) ?_)
      intro ent slot hent hslot
      cases slot with
      | none => exact eval u _ _ (h.does_trans hd hu) hun ⟨hlook, ent, hent, hslot⟩
      | some hit =>
        exact wp_pure ⟨h.does_trans hd hu,
          h.hit u op key n entry ent idx hit hu.inv hu.within hun hlook hent hslot⟩
    · exact wp_pure ⟨h.does_trans hd hu, hlook idx hi⟩
  · exact wp_pure ⟨hd, hr.2.2.2 st rfl idx hi⟩

/-! ## The induction -/

theorem Sound.wp_computeOp (h : T.Sound E) {op : Op} {model : OpModel Op Blk σ π}
    (hm : E.models.op op = some model) {fuel idx : ℕ} {s : State Op Blk σ π}
    (ha : op ∉ s.engine.active → T.Asks ask (Insert.insert op s.engine.active))
    (hf : Fintype.card Op < fuel) (hs : T.Inv s) (hp : T.Pre s (.result op idx))
    (hn : T.Unanswered s (.result op idx)) (hi : idx < E.program.numResults op) :
    wp T.contract (computeOp E ask fuel op idx model) s fun r s' =>
      T.Inv s' ∧ T.Rel s s' ∧ T.Ans s' (.result op idx) r.1 := by
  refine wp_bind (wp_read ?_)
  by_cases hact : op ∈ s.engine.active
  · rw [if_pos hact]
    exact wp_pure ⟨hs, h.rel_refl s, h.cycle s op idx model hm hs hp hi hact⟩
  · rw [if_neg hact]
    refine wp_bind (wp_record fun hr => ?_)
    obtain ⟨hg, hinv, hw⟩ := h.enter s op idx model hm hs hp hn hi hact hr
    refine ⟨hg, wp_bind (wp_mono (h.wp_computeActive hm (ha hact) hf hinv hw rfl hi) ?_)⟩
    rintro ⟨a, outcome⟩ t ⟨hd, hout⟩
    refine wp_bind (wp_record fun hr' => ?_)
    obtain ⟨hg', hinv', hrel', hans⟩ := h.leave s t op idx a hs hp hi hact hd hout hr'
    exact ⟨hg', wp_pure ⟨hinv', hrel', hans⟩⟩

/-- One level of the recursion. -/
theorem Sound.wp_computeWith (h : T.Sound E) {fuel : ℕ} {v : Value Op Blk}
    {s : State Op Blk σ π}
    (ha : ∀ op, op ∉ s.engine.active → T.Asks ask (Insert.insert op s.engine.active))
    (hf : Fintype.card Op < fuel) (hs : T.Inv s) (hp : T.Pre s v) (hn : T.Unanswered s v) :
    wp T.contract (computeWith E ask fuel v) s fun r s' =>
      T.Inv s' ∧ T.Rel s s' ∧ T.Ans s' v r.1 := by
  cases v with
  | arg b i => exact wp_bind (wp_read (wp_pure ⟨hs, h.rel_refl s, h.arg s b i hs hp⟩))
  | result op idx =>
    refine wp_bind
      (wp_require (fun hi => h.invalid s op idx hs hp (by simpa using hi)) fun hi => ?_)
    have hi : idx < E.program.numResults op := by simpa using hi
    cases hm : E.models.op op with
    | some model => exact h.wp_computeOp hm (ha op) hf hs hp hn hi
    | none =>
      refine wp_bind (wp_mono (h.constant s op idx hm hs hp hi) ?_)
      exact fun r t ht => wp_pure ht

/-- `Engine::evaluate` keeps the theory if `Engine::compute` does. -/
theorem Sound.wp_evaluateWith (h : T.Sound E)
    {compute : Value Op Blk → EngineM Op Blk σ π (Answer π × CacheOutcome)}
    (hc : ∀ v, Continuing (compute v)) {v : Value Op Blk} {s : State Op Blk σ π}
    (hs : T.Inv s) (hp : T.Pre s v)
    (hcompute : T.Unanswered s v → wp T.contract (compute v) s fun r s' =>
      T.Inv s' ∧ T.Rel s s' ∧ T.Ans s' v r.1) :
    wp T.contract (evaluate E compute v) s fun a s' => T.Inv s' ∧ T.Rel s s' ∧ T.Ans s' v a := by
  refine wp_bind (wp_read ?_)
  cases hmemo : s.engine.queryAnswers.lookup v with
  | some a => exact wp_pure ⟨hs, h.rel_refl s, h.memo_hit s v a hs hp hmemo⟩
  | none =>
    refine wp_bind (wp_moves hs (hc v) (hcompute (h.unanswered s v hs hp hmemo)) ?_)
    rintro ⟨a, outcome⟩ t ht hans
    by_cases hcomp : a.isCompleted = true
    · simp only [hcomp, if_true]
      refine wp_bind (wp_memoize (fun _ _ => wp_pure ⟨ht.inv, ht.rel, hans⟩) fun hnone hr => ?_)
      obtain ⟨hg, hinv, hrel⟩ := h.memo_add s t v a hp ht hans hcomp hnone hr
      have hm : T.Moves t _ :=
        ⟨ht.inv, hinv, hrel, .note (by simp) rfl rfl rfl rfl rfl rfl rfl rfl⟩
      exact ⟨hg, wp_pure ⟨hinv, h.rel_trans _ _ _ ht.rel hrel, h.ans_memoized _ v a hm hans⟩⟩
    · simp only [hcomp]
      exact wp_pure ⟨ht.inv, ht.rel, hans⟩

end Run

/-- **Every computation keeps a sound theory.**  The induction is on the bound for the nesting,
which every nested query lowers by one and every operation entered brings closer to its end. -/
theorem Sound.wp_compute (h : T.Sound E) {fuel : ℕ} (hf : Fintype.card Op < fuel) {depth : ℕ}
    {v : Value Op Blk} {s : State Op Blk σ π} (hs : T.Inv s) (hp : T.Pre s v)
    (hn : T.Unanswered s v) (hd : Fintype.card Op < depth + s.engine.active.card) :
    wp T.contract (compute E fuel depth v) s fun r s' =>
      T.Inv s' ∧ T.Rel s s' ∧ T.Ans s' v r.1 := by
  induction depth generalizing v s with
  | zero =>
    have := Finset.card_le_univ s.engine.active
    omega
  | succ depth ih =>
    refine h.wp_computeWith
      (fun op hop => ⟨continuing_evaluate (continuing_compute fuel depth), ?_⟩)
      hf hs hp hn
    intro u t ht hpu hact
    refine h.wp_evaluateWith (continuing_compute fuel depth) ht hpu fun hun => ih ht hpu hun ?_
    rw [hact, Finset.card_insert_of_notMem hop]
    omega

/-- The nested queries of a run answer as the theory claims. -/
theorem Sound.asks (h : T.Sound E) {fuel : ℕ} (hf : Fintype.card Op < fuel) {depth : ℕ}
    {active : Finset Op} (hd : Fintype.card Op < depth + active.card) :
    T.Asks (evaluate E (compute E fuel depth)) active where
  continuing := continuing_evaluate (continuing_compute fuel depth)
  spec _ _ hs hp hact := h.wp_evaluateWith (continuing_compute fuel depth) hs hp fun hn =>
    h.wp_compute hf hs hp hn (hact ▸ hd)

end Theory

end MlirInterpreter
