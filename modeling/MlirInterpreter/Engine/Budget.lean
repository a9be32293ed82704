import MlirInterpreter.Engine.CacheInvariant
import MlirInterpreter.Engine.Session
import MlirInterpreter.Foundations.Insensitive

/-!
# The budget bounds a query, and nothing else

Models cannot see how much budget is left, only that there is none.  So a query that ends with
budget to spare is the same query with any budget that covers its cost, whatever the models are
(`query_budget`), and so is a whole session of such queries (`session_budget`).

`Differs a b` relates the states of two such queries, the one with budget `a` and the one with
budget `b`, and `Spare a b` says of the first one that it has budget left and that the second one
can afford what it did.
-/

set_option autoImplicit false

namespace MlirInterpreter

open Recorded

variable {Op Blk σ π : Type}

/-- The state with other values for all that is not looked at. -/
def State.vary (s : State Op Blk σ π) (remaining : ℕ) (log : List (Event Op Blk π)) :
    State Op Blk σ π :=
  { s with engine := { s.engine with remaining := remaining }, log := log }

/-- States that differ in what is not looked at, and in budgets that were `a` and `b`. -/
def Differs (a b : ℕ) (s t : State Op Blk σ π) : Prop :=
  ∃ remaining log, t = s.vary remaining log ∧ s.engine.remaining + b = remaining + a

/-- There is budget left, and a query with the budget `b` could have come this far. -/
def Spare (a b : ℕ) (s : State Op Blk σ π) : Prop :=
  0 < s.engine.remaining ∧ a ≤ s.engine.remaining + b

section Runs

variable {a b : ℕ}

/-- A computation that does not look at the budget. -/
abbrev Unbudgeted (a b : ℕ) {α : Type} (m : EngineM Op Blk σ π α) : Prop :=
  Insensitive (Differs a b) (Spare a b) m

abbrev UnbudgetedAt (a b : ℕ) {α : Type} (m : EngineM Op Blk σ π α) (s : State Op Blk σ π) : Prop :=
  InsensitiveAt (Differs a b) (Spare a b) m s

/-- A write that neither looks at nor charges the budget. -/
theorem unbudgetedAt_record {e : Event Op Blk π} {f : State Op Blk σ π → State Op Blk σ π}
    {s : State Op Blk σ π} (hr : (f s).engine.remaining = s.engine.remaining)
    (hf : ∀ remaining log, f (s.vary remaining log) = (f s).vary remaining log) :
    UnbudgetedAt a b (record e f) s := by
  refine .write (fun h => ?_) ?_
  · simpa [Spare, State.note, hr] using h
  · rintro _ ⟨remaining, log, rfl, hbudget⟩
    refine ⟨remaining, e :: log, ?_, by simpa [State.note, hr] using hbudget⟩
    rw [hf]
    rfl

theorem unbudgeted_note (e : Event Op Blk π) :
    Unbudgeted a b (MlirInterpreter.record e id : EngineM Op Blk σ π Unit) :=
  fun _ => unbudgetedAt_record rfl fun _ _ => rfl

theorem unbudgeted_require (c : Bool) (x : Abort) :
    Unbudgeted a b (require c x : EngineM Op Blk σ π Unit) := by
  rw [require]
  split
  · exact .pure _
  · exact .stop _

/-- The one place where the runs can part. -/
theorem unbudgeted_declareCost : Unbudgeted a b (declareCost : EngineM Op Blk σ π Bool) := by
  intro s r s' hr hs'
  have hrun : ∀ t : State Op Blk σ π, t.engine.remaining ≠ 0 →
      (declareCost t).outcome = .ok (true, t.charge.note .charged) := by
    intro t ht
    simp only [declareCost, Rec.bind_apply, Rec.andThen, Rec.read, if_neg ht]
    rfl
  by_cases h0 : s.engine.remaining = 0
  · -- Without budget nothing is charged, and none is left in the end.
    simp only [declareCost, Rec.bind_apply, Rec.andThen, Rec.read, if_pos h0, Rec.pure_apply,
      Except.ok.injEq, Prod.mk.injEq] at hr
    obtain ⟨-, rfl⟩ := hr
    exact absurd h0 hs'.1.ne'
  · rw [hrun s h0] at hr
    obtain ⟨rfl, rfl⟩ : true = r ∧ s.charge.note .charged = s' := by simpa using hr
    have hspare : 0 < s.engine.remaining - 1 ∧ a ≤ s.engine.remaining - 1 + b := hs'
    refine ⟨⟨by omega, by omega⟩, ?_⟩
    rintro _ ⟨remaining, log, rfl, hbudget⟩
    have hpos : (s.vary remaining log).engine.remaining ≠ 0 := by
      change remaining ≠ 0
      omega
    refine ⟨_, hrun _ hpos, remaining - 1, .charged :: log, rfl, ?_⟩
    change s.engine.remaining - 1 + b = remaining - 1 + a
    have : remaining ≠ 0 := hpos
    omega

/-- Reading the state for what the states of the two runs share. -/
theorem unbudgetedAt_read {β : Type} {f : State Op Blk σ π → EngineM Op Blk σ π β}
    {s : State Op Blk σ π} (hf : UnbudgetedAt a b (f s) s)
    (hsame : ∀ remaining log, f (s.vary remaining log) = f s) :
    UnbudgetedAt a b (Rec.read >>= f) s := by
  refine .read_bind hf ?_
  rintro _ ⟨remaining, log, rfl, -⟩
  exact hsame remaining log

variable {E : Setup Op Blk σ π} {ask : Value Op Blk → EngineM Op Blk σ π (Answer π)}

theorem unbudgeted_allocate (payload : π) : Unbudgeted a b (allocate E payload) := by
  refine fun s => unbudgetedAt_read ?_ fun _ _ => rfl
  exact (unbudgetedAt_record rfl fun _ _ => rfl).bind fun _ _ => .pure _

section

variable [DecidableEq Op] [DecidableEq Blk]

theorem unbudgeted_handler (ha : ∀ v, Unbudgeted a b (ask v)) (i : ScopeOp Op Blk σ π) :
    Unbudgeted a b (handler E ask i) := by
  cases i with
  | query v => exact (ha v).bind fun r => (unbudgeted_note _).bind fun _ => .pure _
  | declareCost => exact unbudgeted_declareCost
  | freezeCache => exact fun s => unbudgetedAt_record rfl fun _ _ => rfl
  | thawCache =>
    refine fun s => unbudgetedAt_read ((unbudgeted_require _ _ s).bind fun _ s' => ?_)
      fun _ _ => rfl
    exact unbudgetedAt_record rfl fun _ _ => rfl
  | bind block args =>
    refine fun s => unbudgetedAt_read ((unbudgeted_require _ _ s).bind fun _ s₁ => ?_)
      fun _ _ => rfl
    exact (unbudgeted_require _ _ s₁).bind fun _ s₂ => unbudgetedAt_record rfl fun _ _ => rfl
  | unbind block =>
    refine fun s => unbudgetedAt_read ?_ fun _ _ => rfl
    cases s.engine.frames.getLast? with
    | none => exact .stop _
    | some frame =>
      exact (unbudgeted_require _ _ s).bind fun _ s₁ =>
        unbudgetedAt_record rfl fun _ _ => rfl
  | allocate payload => exact unbudgeted_allocate payload
  | getWorld => exact fun s => unbudgetedAt_read (.pure _) fun _ _ => rfl
  | setWorld w => exact fun s => unbudgetedAt_record rfl fun _ _ => rfl

theorem unbudgeted_runScope (ha : ∀ v, Unbudgeted a b (ask v)) {α : Type}
    (p : ScopeM Op Blk σ π α) : Unbudgeted a b (runScope E ask p) :=
  .run (unbudgeted_handler ha) p

end

theorem unbudgeted_readEntry (entry : ℕ) :
    Unbudgeted a b (readEntry entry : EngineM Op Blk σ π (CacheEntry Op π)) := by
  refine fun s => unbudgetedAt_read ?_ fun _ _ => rfl
  cases s.cache.arena[entry]? with
  | none => exact .stop _
  | some e => exact .pure _

theorem unbudgeted_readSlot (entry idx : ℕ) :
    Unbudgeted a b (readSlot entry idx : EngineM Op Blk σ π (Option (Answer π))) := by
  refine (unbudgeted_readEntry entry).bind fun e => ?_
  cases e.results[idx]? with
  | none => exact .stop _
  | some slot => exact .pure _

section

variable [DecidableEq Op] [DecidableEq Blk]

theorem unbudgeted_findEquivalent (ha : ∀ v, Unbudgeted a b (ask v)) (op : Op)
    (model : OpModel Op Blk σ π) (key : HashCode) (fuel next : ℕ) :
    Unbudgeted a b (findEquivalent E ask op model key fuel next) := by
  induction fuel generalizing next with
  | zero => exact .stop _
  | succ fuel ih =>
    refine fun s => unbudgetedAt_read ?_ fun _ _ => rfl
    cases (s.bucket key)[next]? with
    | none => exact .pure _
    | some entry =>
      refine (unbudgeted_readEntry entry s).bind fun e s₁ => ?_
      split
      · exact (unbudgeted_note _ s₁).bind fun _ _ => .pure _
      · split
        · exact (unbudgeted_note _ s₁).bind fun _ s₂ => ih (next + 1) s₂
        · refine (unbudgeted_runScope ha _ s₁).bind fun r s₂ => ?_
          cases r with
          | signal status => exact (unbudgeted_note _ s₂).bind fun _ s₃ => ih (next + 1) s₃
          | completed equivalent =>
            refine (unbudgeted_note _ s₂).bind fun _ s₃ => ?_
            split
            · exact .pure _
            · exact ih (next + 1) s₃

theorem unbudgeted_lookup (ha : ∀ v, Unbudgeted a b (ask v)) (fuel : ℕ) (op : Op)
    (model : OpModel Op Blk σ π) : Unbudgeted a b (lookup E ask fuel op model) := by
  refine (unbudgeted_runScope ha _).bind fun r => ?_
  cases r with
  | signal status => exact .pure _
  | completed key =>
    exact (unbudgeted_note _).bind fun _ =>
      (unbudgeted_findEquivalent ha op model key fuel 0).bind fun _ => .pure _

end

theorem unbudgeted_fillSlot (entry idx : ℕ) (answer : Answer π) :
    Unbudgeted a b (fillSlot E entry idx answer) := by
  refine (unbudgeted_readSlot entry idx).bind fun slot => ?_
  rcases slot with _ | held
  · rcases answer with (_ | v) | st
    · exact .pure _
    · exact fun s => unbudgetedAt_read (unbudgetedAt_record rfl fun _ _ => rfl)
        fun _ _ => rfl
    · exact .pure _
  · exact .pure _

theorem unbudgeted_fillSlots (entry idx : ℕ) (answers : List (Answer π)) :
    Unbudgeted a b (fillSlots E entry idx answers) := by
  induction answers generalizing idx with
  | nil => exact .pure _
  | cons answer answers ih =>
    exact (unbudgeted_fillSlot entry idx answer).bind fun _ => ih (idx + 1)

theorem unbudgeted_fill (entry : ℕ) (answers : List (Answer π)) :
    Unbudgeted a b (fill E entry answers) :=
  (unbudgeted_fillSlots entry 0 answers).bind fun _ => unbudgeted_note _

section

variable [DecidableEq Op] [DecidableEq Blk]

theorem unbudgeted_insert (ha : ∀ v, Unbudgeted a b (ask v)) (fuel : ℕ) (op : Op)
    (model : OpModel Op Blk σ π) (lookup : CacheLookup) (answers : List (Answer π)) :
    Unbudgeted a b (insert E ask fuel op model lookup answers) := by
  refine (unbudgeted_findEquivalent ha op model _ fuel _).bind fun r => ?_
  rcases r with ⟨_ | entry, next⟩
  · refine fun s => unbudgetedAt_read ?_ fun _ _ => rfl
    exact (unbudgetedAt_record rfl fun _ _ => rfl).bind fun _ s' =>
      (unbudgeted_fill _ answers s').bind fun _ _ => .pure _
  · exact (unbudgeted_note _).bind fun _ => (unbudgeted_fill entry answers).bind fun _ => .pure _

theorem unbudgeted_memoize (v : Value Op Blk) (answer : Answer π) :
    Unbudgeted a b (memoize E v answer) := by
  refine fun s => unbudgetedAt_read ?_ fun _ _ => rfl
  cases s.engine.queryAnswers.lookup v with
  | some _ => exact .pure _
  | none => exact unbudgetedAt_record rfl fun _ _ => rfl

theorem unbudgeted_evaluate
    {compute : Value Op Blk → EngineM Op Blk σ π (Answer π × CacheOutcome)}
    (hc : ∀ v, Unbudgeted a b (compute v)) (v : Value Op Blk) :
    Unbudgeted a b (evaluate E compute v) := by
  refine fun s => unbudgetedAt_read ?_ fun _ _ => rfl
  cases s.engine.queryAnswers.lookup v with
  | some _ => exact .pure _
  | none =>
    refine (hc v s).bind fun r s₁ => ?_
    obtain ⟨answer, outcome⟩ := r
    by_cases h : answer.isCompleted = true
    · simp only [h, if_true]
      exact (unbudgeted_memoize v answer s₁).bind fun _ _ => .pure _
    · simp only [h]
      exact .pure _

end

theorem unbudgeted_evaluateConstant (op : Op) : Unbudgeted a b (evaluateConstant E op) := by
  rw [evaluateConstant]
  cases E.program.constantAttr op with
  | none => exact .pure _
  | some attr =>
    cases h : E.models.attr attr with
    | none => simp only [h]; exact .pure _
    | some model =>
      simp only [h]
      split
      · refine fun s => unbudgetedAt_read ?_ fun _ _ => rfl
        cases s.cache.constants.lookup _ with
        | some _ => exact .pure _
        | none => exact (unbudgetedAt_record rfl fun _ _ => rfl).bind fun _ _ => .pure _
      · cases model.toEvalValue with
        | none => exact .pure _
        | some payload => exact (unbudgeted_allocate payload).bind fun _ => .pure _

theorem unbudgeted_canonical (entry : Option ℕ) (results : List (Answer π)) (idx : ℕ) :
    Unbudgeted a b (canonical entry results idx : EngineM Op Blk σ π (Answer π)) := by
  rw [canonical]
  cases results[idx]? with
  | none => exact .stop _
  | some computed =>
    cases entry with
    | none => exact .pure _
    | some entry => exact (unbudgeted_readSlot entry idx).bind fun _ => .pure _

variable [DecidableEq Op] [DecidableEq Blk]

theorem unbudgeted_memoizeResults (op : Op) (entry : Option ℕ) (results : List (Answer π))
    (idx count : ℕ) : Unbudgeted a b (memoizeResults E op entry results idx count) := by
  induction count generalizing idx with
  | zero => exact .pure _
  | succ count ih =>
    refine (unbudgeted_canonical entry results idx).bind fun answer => ?_
    split
    · exact (unbudgeted_memoize _ answer).bind fun _ => ih (idx + 1)
    · exact ih (idx + 1)

theorem unbudgeted_store (ha : ∀ v, Unbudgeted a b (ask v)) (fuel : ℕ) (op : Op)
    (model : OpModel Op Blk σ π) (cached : Option CacheLookup) (results : List (Answer π)) :
    Unbudgeted a b (store E ask fuel op model cached results) := by
  cases cached with
  | none => exact .pure _
  | some cached =>
    refine fun s => unbudgetedAt_read ?_ fun _ _ => rfl
    split
    · cases cached.entry with
      | some entry => exact (unbudgeted_fill entry results s).bind fun _ _ => .pure _
      | none =>
        exact (unbudgeted_insert ha fuel op model cached results s).bind fun _ _ => .pure _
    · exact .pure _

theorem unbudgeted_evaluateOp (ha : ∀ v, Unbudgeted a b (ask v)) (fuel : ℕ) (op : Op) (idx : ℕ)
    (model : OpModel Op Blk σ π) (cached : Option CacheLookup) :
    Unbudgeted a b (evaluateOp E ask fuel op idx model cached) := by
  refine unbudgeted_declareCost.bind fun charged => ?_
  cases charged with
  | false => exact .pure _
  | true =>
    refine (unbudgeted_note _).bind fun _ => (unbudgeted_runScope ha _).bind fun results =>
      (unbudgeted_require _ _).bind fun _ => (unbudgeted_note _).bind fun _ =>
      (unbudgeted_store ha fuel op model cached results).bind fun entry =>
      (unbudgeted_memoizeResults op entry results 0 _).bind fun _ => ?_
    exact unbudgeted_canonical entry results idx

theorem unbudgeted_computeActive (ha : ∀ v, Unbudgeted a b (ask v)) (fuel : ℕ) (op : Op)
    (idx : ℕ) (model : OpModel Op Blk σ π) :
    Unbudgeted a b (computeActive E ask fuel op idx model) := by
  refine (unbudgeted_runScope ha _).bind fun r => ?_
  rcases r with (_ | _) | status
  · exact (unbudgeted_evaluateOp ha fuel op idx model none).bind fun _ => .pure _
  · refine (unbudgeted_lookup ha fuel op model).bind fun r => ?_
    rcases r with ⟨key, entry, searched⟩ | status
    · cases entry with
      | none => exact (unbudgeted_evaluateOp ha fuel op idx model _).bind fun _ => .pure _
      | some entry =>
        refine (unbudgeted_readSlot entry idx).bind fun slot => ?_
        cases slot with
        | none => exact (unbudgeted_evaluateOp ha fuel op idx model _).bind fun _ => .pure _
        | some hit => exact .pure _
    · exact .pure _
  · exact .pure _

theorem unbudgeted_computeOp (ha : ∀ v, Unbudgeted a b (ask v)) (fuel : ℕ) (op : Op) (idx : ℕ)
    (model : OpModel Op Blk σ π) : Unbudgeted a b (computeOp E ask fuel op idx model) := by
  refine fun s => unbudgetedAt_read ?_ fun _ _ => rfl
  split
  · exact .pure _
  · refine InsensitiveAt.bind (unbudgetedAt_record rfl fun _ _ => rfl) fun _ s₁ => ?_
    refine (unbudgeted_computeActive ha fuel op idx model s₁).bind fun r s₂ => ?_
    exact (unbudgetedAt_record rfl fun _ _ => rfl).bind fun _ _ => .pure _

theorem unbudgeted_computeWith (ha : ∀ v, Unbudgeted a b (ask v)) (fuel : ℕ)
    (v : Value Op Blk) : Unbudgeted a b (computeWith E ask fuel v) := by
  cases v with
  | arg blk i => exact fun s => unbudgetedAt_read (.pure _) fun _ _ => rfl
  | result op idx =>
    refine (unbudgeted_require _ _).bind fun _ => ?_
    cases h : E.models.op op with
    | some model => exact unbudgeted_computeOp ha fuel op idx model
    | none => exact (unbudgeted_evaluateConstant op).bind fun _ => .pure _

/-- `compute` does not look at the budget. -/
theorem unbudgeted_compute (fuel depth : ℕ) (v : Value Op Blk) :
    Unbudgeted a b (compute E fuel depth v) := by
  induction depth generalizing v with
  | zero => exact .stop _
  | succ depth ih => exact unbudgeted_computeWith (unbudgeted_evaluate ih) fuel v

omit [DecidableEq Op] [DecidableEq Blk] in
theorem unbudgeted_handOut (engine : ℕ) (answer : Answer π) :
    Unbudgeted a b (handOut E engine answer) := by
  rcases answer with (_ | v) | st
  · exact .pure _
  · refine fun s => unbudgetedAt_read ?_ fun _ _ => rfl
    exact (unbudgetedAt_record rfl fun _ _ => rfl).bind fun _ _ => .pure _
  · exact .pure _

end Runs

/-! ## Queries -/

section Queries

variable {E : Setup Op Blk σ π}

/-- The states of two sessions that went alike. -/
def State.Alike (s t : State Op Blk σ π) : Prop := ∃ remaining log, t = s.vary remaining log

theorem State.Alike.refl (s : State Op Blk σ π) : s.Alike s := ⟨s.engine.remaining, s.log, rfl⟩

variable [DecidableEq Op] [DecidableEq Blk] [Fintype Op]

/-- The part of `Engine::query` after its budget is set. -/
def answerQuery (E : Setup Op Blk σ π) (engine : ℕ) (value : Value Op Blk) :
    EngineM Op Blk σ π (Answer π × CacheOutcome) := do
  let (computed, outcome) ← compute E (Fintype.card Op + 1) (Fintype.card Op + 1) value
  let answer ← handOut E engine computed
  let s ← Rec.read
  require s.engine.scopesEnded .leakedScope
  record (.queryEnded engine value answer) State.endQuery
  return (answer, outcome)

/-- A query in an idle engine. -/
theorem query_outcome {engine budget : ℕ} {value : Value Op Blk} {s : State Op Blk σ π}
    (h : s.engine.queryAllocator = none) :
    (query E engine budget value s).outcome = (answerQuery E engine value
      ((s.beginQuery engine budget).note (.queryStarted engine budget value))).outcome := by
  have hrequire : require s.engine.queryAllocator.isNone .queryActive =
      (pure () : EngineM Op Blk σ π Unit) := by rw [h]; rfl
  change (Rec.andThen (require s.engine.queryAllocator.isNone .queryActive)
    (fun _ => record (.queryStarted engine budget value) (State.beginQuery engine budget) >>=
      fun _ => answerQuery E engine value) s).outcome = _
  rw [hrequire]
  rfl

/-- A query that ended was asked in an idle engine. -/
theorem idle_of_query {engine budget : ℕ} {value : Value Op Blk} {s s' : State Op Blk σ π}
    {r : Answer π × CacheOutcome} (h : (query E engine budget value s).outcome = .ok (r, s')) :
    s.engine.queryAllocator = none := by
  cases hq : s.engine.queryAllocator with
  | none => rfl
  | some id =>
    have hstop : (query E engine budget value s).outcome = .error .queryActive := by
      change (Rec.andThen (require s.engine.queryAllocator.isNone .queryActive)
        (fun _ => record (.queryStarted engine budget value) (State.beginQuery engine budget) >>=
          fun _ => answerQuery E engine value) s).outcome = _
      rw [hq]
      rfl
    rw [hstop] at h
    cases h

theorem unbudgeted_answerQuery {a b : ℕ} (engine : ℕ) (value : Value Op Blk) :
    Unbudgeted a b (answerQuery E engine value) := by
  refine (unbudgeted_compute _ _ value).bind fun r => ?_
  refine (unbudgeted_handOut engine r.1).bind fun answer => ?_
  refine fun s => unbudgetedAt_read ((unbudgeted_require _ _ s).bind fun _ s' => ?_) fun _ _ => rfl
  exact (unbudgetedAt_record rfl fun _ _ => rfl).bind fun _ _ => .pure _

/-- A query that ends with budget to spare ends alike with every budget that covers its cost. -/
theorem query_budget {engine a b : ℕ} {value : Value Op Blk} {r : Answer π × CacheOutcome}
    {s s' t : State Op Blk σ π} (h : (query E engine a value s).outcome = .ok (r, s'))
    (hleft : 0 < s'.engine.remaining) (hb : a ≤ s'.engine.remaining + b) (ht : s.Alike t) :
    ∃ t', (query E engine b value t).outcome = .ok (r, t') ∧ s'.Alike t' ∧
      s'.engine.remaining + b = t'.engine.remaining + a := by
  obtain ⟨remaining, log, rfl⟩ := ht
  have hidle := idle_of_query h
  have hstart : Differs a b ((s.beginQuery engine a).note (.queryStarted engine a value))
      (((s.vary remaining log).beginQuery engine b).note (.queryStarted engine b value)) :=
    ⟨b, _, rfl, Nat.add_comm a b⟩
  rw [query_outcome hidle] at h
  obtain ⟨-, hrun⟩ := unbudgeted_answerQuery engine value _ r s' h ⟨hleft, hb⟩
  obtain ⟨t', ht', left, log', rfl, hleft'⟩ := hrun _ hstart
  exact ⟨_, (query_outcome (s := s.vary remaining log) hidle).trans ht', ⟨left, log', rfl⟩, hleft'⟩

/-- A call that left budget, made with another budget that covers its cost. -/
inductive Rebudgeted : Exchange Op Blk π → Exchange Op Blk π → Prop
  | query (engine : ℕ) (value : Value Op Blk) (reply : Answer π × CacheOutcome)
      {budget left budget' left' : ℕ} (hleft : 0 < left) (hcost : left + budget' = left' + budget) :
      Rebudgeted (.query engine budget value reply left) (.query engine budget' value reply left')
  | clear : Rebudgeted .clear .clear

/-- **Budgets only bound queries.**  Let every query of a session leave some of its budget, whatever
the models are.  Then the session goes through just the same with any other budgets that cover what
its queries cost: every query has the same answer, the same handle and the same lookup outcome, and
costs the same, and the cache, the storages and the models end in the same states. -/
theorem session_budget {s s' : State Op Blk σ π} {l l' : List (Exchange Op Blk π)}
    (h : Session E s l s') (hl : List.Forall₂ Rebudgeted l l') :
    ∃ t', Session E s l' t' ∧ t'.cache = s'.cache ∧ t'.heap = s'.heap ∧ t'.world = s'.world := by
  have alike : ∀ {t}, s.Alike t → ∃ t', Session E t l' t' ∧ s'.Alike t' := by
    induction h generalizing l' with
    | nil s =>
      cases hl
      exact fun ht => ⟨_, .nil _, ht⟩
    | @query s u s' l engine a value reply hv hr _ ih =>
      intro t ht
      obtain ⟨_, m, hx, hm, rfl⟩ := List.forall₂_cons_left_iff.mp hl
      cases hx with
      | @query _ _ _ _ _ b left' hleft hcost =>
        have hb : a ≤ u.engine.remaining + b := by omega
        obtain ⟨t₁, ht₁, halike, hcost'⟩ := query_budget hr hleft hb ht
        obtain rfl : left' = t₁.engine.remaining := by omega
        obtain ⟨t', hsession, ht'⟩ := ih hm halike
        exact ⟨t', .query engine b value hv ht₁ hsession, ht'⟩
    | @clear s u l _ ih =>
      rintro _ ⟨remaining, log, rfl⟩
      obtain ⟨_, m, hx, hm, rfl⟩ := List.forall₂_cons_left_iff.mp hl
      cases hx with
      | clear =>
        obtain ⟨t', hsession, ht'⟩ := ih hm
          (t := (s.vary remaining log).clear.note .cleared) ⟨remaining, .cleared :: log, rfl⟩
        exact ⟨t', .clear hsession, ht'⟩
  obtain ⟨t', hsession, remaining, log, rfl⟩ := alike (.refl s)
  exact ⟨_, hsession, rfl, rfl, rfl⟩

/-- Models that ask for operands in every method, asked twice. -/
theorem session_budget_reentrant : ∃ reply t', Session reentrantSetup (State.init ())
    [.query 0 7 (.result 8 0) reply 1, .clear] t' := by
  have hleft : (query reentrantSetup 0 100 (.result 8 0) (State.init ())).outcome.toOption.any
      (fun r => r.2.engine.remaining = 94) = true := by decide +kernel
  obtain ⟨⟨reply, s⟩, hr, hs⟩ := (Option.any_eq_true _ _).mp hleft
  have hrun : (query reentrantSetup 0 100 (.result 8 0) (State.init ())).outcome =
      .ok (reply, s) := by
    cases ho : (query reentrantSetup 0 100 (.result 8 0) (State.init ())).outcome with
    | error x => simp [ho, Except.toOption] at hr
    | ok r => simpa [ho, Except.toOption] using hr
  have hsession := Session.query 0 100 (.result 8 0) (by decide) hrun (.clear (.nil _))
  rw [of_decide_eq_true hs] at hsession
  have hother : Rebudgeted (.query 0 100 (.result 8 0) reply 94)
      (.query 0 7 (.result 8 0) reply 1 : Exchange (Fin 10) (Fin 2) Unit) :=
    .query 0 (.result 8 0) reply (by decide) (by decide)
  obtain ⟨t', ht', -⟩ := session_budget hsession (.cons hother (.cons .clear .nil))
  exact ⟨reply, t', ht'⟩

end Queries

end MlirInterpreter
