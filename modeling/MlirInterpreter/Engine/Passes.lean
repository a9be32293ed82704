import MlirInterpreter.Engine.CacheInvariant
import MlirInterpreter.Foundations.Monitor

/-!
# The passes of an operation

Every time `Engine::compute` enters an operation the events about it come in one order: the search
of a bucket from its first candidate to the end or to a match, one call of `evaluate`, the rest of
the search from where it ended, a new entry.  `passes` is the automaton that reads this order.

Models may ask for anything at any time, so the events of many operations are interleaved, those of
an operation with those of the operations its methods ask for.  `passes_in_order` says that the
events about one operation come in turn all the same; `outcome_of_pass` that the `CacheOutcome` of a
query is what the last pass of the operation amounts to.
-/

set_option autoImplicit false

namespace MlirInterpreter

open Recorded

variable {Op Blk σ π : Type} [DecidableEq Op]

/-! ## The order of the events -/

/-- How far the search of a bucket has come. -/
structure Search where
  key : HashCode
  /-- The position of the next candidate, or of the one that matched. -/
  position : ℕ
  found : Bool
deriving DecidableEq

/-- The search after one more candidate, if it is the candidate whose turn it is. -/
def Search.examine (c : Search) (key : HashCode) (position : ℕ) (verdict : Verdict) :
    Option Search :=
  if c.found = false ∧ c.key = key ∧ c.position = position then
    some (if verdict.isMatch then { c with found := true } else { c with position := position + 1 })
  else none

/-- What a pass came to. -/
inductive Pass
  /-- The operation was neither looked up nor evaluated. -/
  | undecided
  /-- It was looked up only. -/
  | searched (found : Bool)
  /-- It was evaluated, after a lookup or without one. -/
  | evaluated (lookedUp : Bool)
deriving DecidableEq

/-- Where the code for an operation is. -/
inductive Phase
  /-- The operation is not being computed; the last pass came to this. -/
  | idle (last : Option Pass)
  | entered
  | searching (c : Search)
  /-- `evaluate` is running, after the lookup if there was one. -/
  | evaluating (lookup : Option Search)
  | evaluated (lookup : Option Search)
  /-- `insert` goes on with the search. -/
  | resumed (c : Search)
  | appended
deriving DecidableEq

/-- The phase after an event. -/
def Phase.advance : Phase → Event Op Blk π → Option Phase
  | .idle _, .entered _ => some .entered
  | .entered, .searching _ key => some (.searching ⟨key, 0, false⟩)
  | .entered, .evaluating _ => some (.evaluating none)
  | .entered, .left _ => some (.idle (some .undecided))
  | .searching c, .examined _ key n verdict => (c.examine key n verdict).map .searching
  | .searching c, .evaluating _ => some (.evaluating (some c))
  | .searching c, .left _ => some (.idle (some (.searched c.found)))
  | .evaluating lookup, .evaluated _ _ => some (.evaluated lookup)
  | .evaluated (some c), .examined _ key n verdict => (c.examine key n verdict).map .resumed
  | .evaluated (some c), .appended _ key _ =>
    if c.found = false ∧ c.key = key then some .appended else none
  | .evaluated lookup, .left _ => some (.idle (some (.evaluated lookup.isSome)))
  | .resumed c, .examined _ key n verdict => (c.examine key n verdict).map .resumed
  | .resumed c, .appended _ key _ =>
    if c.found = false ∧ c.key = key then some .appended else none
  | .resumed c, .left _ => if c.found = true then some (.idle (some (.evaluated true))) else none
  | .appended, .left _ => some (.idle (some (.evaluated true)))
  | _, _ => none

/-- The operation whose computation an event belongs to. -/
def Event.computed : Event Op Blk π → Option Op
  | .entered op => some op
  | .left op => some op
  | .searching op _ => some op
  | .examined op _ _ _ => some op
  | .evaluating op => some op
  | .evaluated op _ => some op
  | .appended op _ _ => some op
  | _ => none

variable (Op Blk π) in
/-- The order of the events about an operation. -/
def passes : Monitor Op (Event Op Blk π) Phase where
  subject := Event.computed
  start := .idle none
  advance := Phase.advance

/-- The phase an operation is in. -/
def State.phase (s : State Op Blk σ π) (op : Op) : Option Phase := (passes Op Blk π).state op s.log

/-- How a query describes a pass that has led to an answer. -/
def Pass.outcome : Pass → Answer π → CacheOutcome
  | .undecided, _ => .none
  | .searched _, .completed _ => .hit
  -- There was no budget left to evaluate it.
  | .searched _, .signal _ => .miss
  | .evaluated lookedUp, _ => if lookedUp then .miss else .none

/-- The pass led to the answer and the outcome.  If it was a lookup only, the only signal is that
the budget was used up. -/
def Pass.LedTo (pass : Pass) (a : Answer π) (outcome : CacheOutcome) : Prop :=
  outcome = pass.outcome a ∧ ∀ found st, pass = .searched found → a = .signal st → st = .exhausted

/-! ## The invariant -/

/-- The operation is not being computed. -/
def Phase.isIdle : Phase → Bool
  | .idle _ => true
  | _ => false

/-- Every operation is in a phase, and the active ones are those being computed. -/
def PassInv (s : State Op Blk σ π) : Prop :=
  ∀ op, ∃ p, s.phase op = some p ∧ (p.isIdle = true ↔ op ∉ s.engine.active)

/-- What a nested query leaves alone: the operations being computed. -/
structure Undisturbed (s t : State Op Blk σ π) : Prop where
  active : t.engine.active = s.engine.active
  silent : ∀ op ∈ s.engine.active, (passes Op Blk π).Silent op s.log t.log

theorem PassInv.conforms {s : State Op Blk σ π} (h : PassInv s) :
    (passes Op Blk π).Conforms s.log := fun op => by
  obtain ⟨p, hp, -⟩ := h op
  rw [Option.isSome_iff_exists]
  exact ⟨p, hp⟩

section Invariant

variable {s t u : State Op Blk σ π} {op : Op} {p q : Phase} {e : Event Op Blk π}

theorem Undisturbed.refl (s : State Op Blk σ π) : Undisturbed s s := ⟨rfl, fun op _ => .refl op _⟩

theorem Undisturbed.trans (h : Undisturbed s t) (h' : Undisturbed t u) : Undisturbed s u :=
  ⟨h'.active.trans h.active,
    fun op hop => (h.silent op hop).trans (h'.silent op (h.active.symm ▸ hop))⟩

theorem Undisturbed.phase (h : Undisturbed s t) (hop : op ∈ s.engine.active) :
    t.phase op = s.phase op := (h.silent op hop).state

theorem phase_cons_of_ne (hl : t.log = e :: s.log) (he : e.computed ≠ some op) :
    t.phase op = s.phase op := by
  rw [State.phase, State.phase, hl]
  exact Monitor.state_cons_of_ne he

/-- A write that is not about an operation. -/
theorem Undisturbed.write (hl : t.log = e :: s.log) (he : e.computed = none)
    (ha : t.engine.active = s.engine.active) : Undisturbed s t :=
  ⟨ha, fun op _ => hl ▸ Monitor.Silent.cons (by simp [passes, he]) s.log⟩

theorem PassInv.write (h : PassInv s) (hl : t.log = e :: s.log) (he : e.computed = none)
    (ha : t.engine.active = s.engine.active) : PassInv t := by
  intro op
  obtain ⟨p, hp, hidle⟩ := h op
  exact ⟨p, (phase_cons_of_ne hl (by simp [he])).trans hp, by rwa [ha]⟩

/-- An event about `op`, if it is in turn. -/
theorem phase_cons (hl : t.log = e :: s.log) (he : e.computed = some op)
    (hp : s.phase op = some p) : t.phase op = p.advance e := by
  rw [State.phase, hl]
  exact Monitor.state_cons (M := passes Op Blk π) he hp

/-- A write about `op`, after which it is in the phase `q`. -/
theorem PassInv.writeOwn (h : PassInv s) (hl : t.log = e :: s.log) (he : e.computed = some op)
    (hp : s.phase op = some p) (hq : p.advance e = some q)
    (hactive : ∀ o, o ≠ op → (o ∈ t.engine.active ↔ o ∈ s.engine.active))
    (hidle : q.isIdle = true ↔ op ∉ t.engine.active) : PassInv t := by
  intro o
  by_cases ho : o = op
  · subst ho
    exact ⟨q, (phase_cons hl he hp).trans hq, hidle⟩
  · obtain ⟨r, hr, hi⟩ := h o
    refine ⟨r, (phase_cons_of_ne hl ?_).trans hr, by rw [hactive o ho]; exact hi⟩
    rw [he]
    exact fun h => ho (Option.some.inj h).symm

end Invariant

/-! ## The theory -/

/-- The code for `op` may be left from this phase with the answer. -/
def Phase.Leaves (a : Answer π) : Phase → Prop
  | .entered => a.isCompleted = false
  | .searching c => c.found = true ∨ a.isCompleted = false
  | .evaluated _ => True
  | .resumed c => c.found = true
  | .appended => True
  | _ => False

/-- How far the code has come: before, in or past the call of `evaluate`. -/
def Phase.stage : Phase → ℕ
  | .idle _ => 0
  | .entered => 0
  | .searching _ => 0
  | .evaluating _ => 1
  | .evaluated _ => 2
  | .resumed _ => 2
  | .appended => 2

/-- The operation was looked up in this pass. -/
def Phase.lookedUp : Phase → Bool
  | .searching _ => true
  | .evaluating lookup => lookup.isSome
  | .evaluated lookup => lookup.isSome
  | .resumed _ => true
  | .appended => true
  | _ => false

/-- The operation is past the stage `n`, and was looked up or not. -/
def PastStage (s : State Op Blk σ π) (op : Op) (n : ℕ) (lookedUp : Bool) : Prop :=
  ∃ p, s.phase op = some p ∧ n < p.stage ∧ p.lookedUp = lookedUp

/-- What the code for `op` does: it leaves the other operations alone, and gets further with its
own. -/
structure Advanced (op : Op) (s t : State Op Blk σ π) : Prop where
  active : t.engine.active = s.engine.active
  silent : ∀ o ∈ s.engine.active, o ≠ op → (passes Op Blk π).Silent o s.log t.log
  past : op ∈ s.engine.active → ∀ n b, PastStage s op n b → PastStage t op n b

/-- What a lookup leaves behind. -/
def CacheLookup.search (cached : CacheLookup) : Search :=
  ⟨cached.key, cached.searched, cached.entry.isSome⟩

/-- The search for an operation, by its lookup or by `insert`, has come to `c`. -/
def SearchAt (s : State Op Blk σ π) (op : Op) (c : Search) : Prop :=
  s.phase op = some (.searching c) ∨ s.phase op = some (.evaluated (some c)) ∨
    s.phase op = some (.resumed c)

/-- What a search found, or what was appended, is there. -/
def Keeping (s : State Op Blk σ π) (op : Op) : Prop :=
  (∃ c, c.found = true ∧ SearchAt s op c) ∨ s.phase op = some .appended

/-- The order of the events under arbitrary models. -/
def passTheory : Theory Op Blk σ π where
  contract := ⟨fun _ => True, fun t => (passes Op Blk π).Conforms t.log, fun _ => True⟩
  Inv := PassInv
  Rel := Undisturbed
  Own := Advanced
  Pre _ _ := True
  Ans _ _ _ := True
  Within s op := op ∈ s.engine.active
  Uncached s op := s.phase op = some .entered
  Key s op _ := s.phase op = some .entered
  Missed s op key n := SearchAt s op ⟨key, n, false⟩
  Compared _ _ _ _ := True
  Found s op key n _ := SearchAt s op ⟨key, n, true⟩
  Kept s op _ := Keeping s op
  Ready s op cached := s.phase op = some (.evaluating (cached.map CacheLookup.search)) ∨
    s.phase op = some (.evaluated (cached.map CacheLookup.search))
  Results s op _ := ∃ b, PastStage s op 0 b
  Out s op _ _ := ∃ p, s.phase op = some p ∧ (1 < p.stage → ∀ a : Answer π, p.Leaves a)
  Eligible s op := s.phase op = some .entered
  Unevaluated s op := ∀ p, s.phase op = some p → p = .entered ∨ ∃ c, p = .searching c
  Running s op := ∃ lookup, s.phase op = some (.evaluating lookup)
  Evaluated s op _ := ∃ b, PastStage s op 1 b
  Unstored s op _ := ∃ lookup, s.phase op = some (.evaluated lookup)
  Done s op _ a := ∃ p, s.phase op = some p ∧ p.Leaves a

section Writes

variable {E : Setup Op Blk σ π} {s t : State Op Blk σ π} {op : Op} {e : Event Op Blk π}
  {p q : Phase} {c : Search}

/-- A write that is not about an operation. -/
theorem passTheory_allows (hs : PassInv s) (hl : t.log = e :: s.log) (he : e.computed = none)
    (ha : t.engine.active = s.engine.active) : passTheory.Allows s t := fun _ =>
  ⟨(hs.write hl he ha).conforms, hs.write hl he ha, .write hl he ha⟩

/-- An event about the operation being computed that is in turn. -/
theorem passTheory_allowsOwn (hs : PassInv s) (hw : op ∈ s.engine.active) (hl : t.log = e :: s.log)
    (ha : t.engine.active = s.engine.active) (he : e.computed = some op) (hp : s.phase op = some p)
    (hq : p.advance e = some q) (hidle : q.isIdle = false)
    (hstage : 0 < p.stage → p.stage ≤ q.stage ∧ q.lookedUp = p.lookedUp) {Q : Prop}
    (hQ : t.phase op = some q → Q) : passTheory.AllowsOwn op s t Q := by
  intro _
  have hphase : t.phase op = some q := (phase_cons hl he hp).trans hq
  have hw' : op ∈ t.engine.active := ha ▸ hw
  have hinv : PassInv t := hs.writeOwn hl he hp hq (fun _ _ => by rw [ha]) (by simp [hidle, hw'])
  refine ⟨hinv.conforms, hinv, ⟨ha, fun o _ ho => ?_, fun _ n b ⟨p', hp', hn, hb⟩ => ?_⟩, hw',
    hQ hphase⟩
  · rw [hl]
    refine .cons ?_ s.log
    rw [show (passes Op Blk π).subject e = some op from he]
    exact fun h => ho (Option.some.inj h).symm
  · obtain rfl := Option.some.inj (hp.symm.trans hp')
    obtain ⟨hle, hlook⟩ := hstage (by omega)
    exact ⟨q, hphase, by omega, hlook.trans hb⟩

theorem passTheory_noteOwn (e : Event Op Blk π) (q : Phase) (hs : PassInv s)
    (hw : op ∈ s.engine.active) (he : e.computed = some op) (hp : s.phase op = some p)
    (hq : p.advance e = some q) (hidle : q.isIdle = false)
    (hstage : 0 < p.stage → p.stage ≤ q.stage ∧ q.lookedUp = p.lookedUp) {Q : Prop}
    (hQ : (s.note e).phase op = some q → Q) : passTheory.AllowsOwn op s (s.note e) Q :=
  passTheory_allowsOwn (t := s.note e) hs hw rfl rfl he hp hq hidle hstage hQ

/-- A method of a model leaves the operations alone that it is part of. -/
theorem passTheory_runScope [DecidableEq Blk] {ask : Value Op Blk → EngineM Op Blk σ π (Answer π)}
    (ha : passTheory.Asks ask s.engine.active) (hs : PassInv s) {α : Type}
    (m : ScopeM Op Blk σ π α) :
    wp passTheory.contract (runScope E ask m) s fun _ t => PassInv t ∧ Undisturbed s t := by
  refine Theory.wp_runScope (T := passTheory) Undisturbed.refl (fun _ _ _ h h' => h.trans h')
    (fun _ _ h => h.active) (fun _ _ _ => trivial) (fun _ _ => trivial) (fun t u ht hu => ?_)
    ha hs m
  cases hu with
  | _ => exact passTheory_allows ht rfl rfl rfl

theorem passTheory_fill {l : List (Answer π)} {entry : ℕ} (hs : PassInv s) :
    wp passTheory.contract (fill E entry l) s fun _ t => PassInv t ∧ Undisturbed s t := by
  have step : ∀ {t u : State Op Blk σ π} {e : Event Op Blk π}, PassInv t ∧ Undisturbed s t →
      u.log = e :: t.log → e.computed = none → u.engine.active = t.engine.active →
      (passes Op Blk π).Conforms u.log ∧ PassInv u ∧ Undisturbed s u := by
    intro t u e ht hl he ha
    obtain ⟨hg, hi, hu⟩ := passTheory_allows ht.1 hl he ha trivial
    exact ⟨hg, hi, ht.2.trans hu⟩
  refine wp_bind (wp_mono (wp_fillSlots (J := fun _ t => PassInv t ∧ Undisturbed s t)
    (fun j a t _ ht => ?_) ⟨hs, .refl s⟩) fun _ t ht => wp_record fun _ => step ht rfl rfl rfl)
  refine wp_fillSlot (fun _ => trivial) (fun _ => ht) (fun _ _ _ _ => ht) fun _ _ _ _ _ => ?_
  intro r u _
  exact step (t := t) (u := u) ht rfl rfl rfl

/-- A candidate is examined in its turn. -/
theorem passTheory_examined {key : HashCode} {n : ℕ} {verdict : Verdict} (hs : PassInv s)
    (hw : op ∈ s.engine.active) (h : SearchAt s op ⟨key, n, false⟩) {c : Search}
    (hc : Search.examine ⟨key, n, false⟩ key n verdict = some c) :
    passTheory.AllowsOwn op s (s.note (.examined op key n verdict))
      (SearchAt (s.note (.examined op key n verdict)) op c) := by
  rcases h with h | h | h
  · exact passTheory_noteOwn _ (.searching c) hs hw rfl h (by simp [Phase.advance, hc]) rfl
      (fun h => absurd h (lt_irrefl 0)) Or.inl
  · exact passTheory_noteOwn _ (.resumed c) hs hw rfl h (by simp [Phase.advance, hc]) rfl
      (fun _ => ⟨le_rfl, rfl⟩) fun h => Or.inr (Or.inr h)
  · exact passTheory_noteOwn _ (.resumed c) hs hw rfl h (by simp [Phase.advance, hc]) rfl
      (fun _ => ⟨le_rfl, rfl⟩) fun h => Or.inr (Or.inr h)

theorem passTheory_missed {key : HashCode} {n : ℕ} {verdict : Verdict} (hs : PassInv s)
    (hw : op ∈ s.engine.active) (h : SearchAt s op ⟨key, n, false⟩) (hv : verdict.isMatch = false) :
    passTheory.AllowsOwn op s (s.note (.examined op key n verdict))
      (SearchAt (s.note (.examined op key n verdict)) op ⟨key, n + 1, false⟩) :=
  passTheory_examined hs hw h (by simp [Search.examine, hv])

theorem passTheory_found {key : HashCode} {n : ℕ} {verdict : Verdict} (hs : PassInv s)
    (hw : op ∈ s.engine.active) (h : SearchAt s op ⟨key, n, false⟩) (hv : verdict.isMatch = true) :
    passTheory.AllowsOwn op s (s.note (.examined op key n verdict))
      (SearchAt (s.note (.examined op key n verdict)) op ⟨key, n, true⟩) :=
  passTheory_examined hs hw h (by simp [Search.examine, hv])

/-- When `evaluate` has just returned, it is not running. -/
theorem phase_evaluated {l : List (Answer π)} (hlog : s.log.head? = some (.evaluated op l))
    (hp : s.phase op = some p) : ∃ lookup, p = .evaluated lookup := by
  obtain ⟨log, hl⟩ := List.head?_eq_some_iff.mp hlog
  rw [State.phase, hl, Monitor.state_cons_self (M := passes Op Blk π) rfl] at hp
  obtain ⟨r, -, hr⟩ := Option.bind_eq_some_iff.mp hp
  cases r with
  | evaluating lookup => exact ⟨lookup, (Option.some.inj hr).symm⟩
  | idle last => cases hr
  | entered => cases hr
  | searching c => cases hr
  | evaluated lookup => rcases lookup with _ | c <;> cases hr
  | resumed c => cases hr
  | appended => cases hr

theorem SearchAt.stable {c : Search} (h : SearchAt s op c) (hm : Undisturbed s t)
    (hw : op ∈ s.engine.active) : SearchAt t op c := by
  rw [SearchAt, hm.phase hw]
  exact h

theorem Keeping.stable (h : Keeping s op) (hm : Undisturbed s t) (hw : op ∈ s.engine.active) :
    Keeping t op := by
  rw [Keeping, hm.phase hw]
  exact h.imp (fun ⟨c, hc, hs⟩ => ⟨c, hc, hs.stable hm hw⟩) id

/-- The phase in which the lookup of an operation has ended, or there was none. -/
def Phase.ofLookup : Option Search → Phase
  | none => .entered
  | some c => .searching c

omit [DecidableEq Op] in
theorem Phase.advance_ofLookup {lookup : Option Search} :
    (Phase.ofLookup lookup).advance (.evaluating op : Event Op Blk π) =
      some (.evaluating lookup) := by
  cases lookup <;> rfl

theorem Phase.stage_ofLookup {lookup : Option Search} : (Phase.ofLookup lookup).stage = 0 := by
  cases lookup <;> rfl

/-- The search of an operation that was not evaluated is that of its lookup. -/
theorem SearchAt.searching {c : Search} (h : SearchAt s op c) (hun : passTheory.Unevaluated s op) :
    s.phase op = some (.searching c) := by
  rcases h with h | h | h
  · exact h
  · rcases hun _ h with h | ⟨c', h⟩ <;> cases h
  · rcases hun _ h with h | ⟨c', h⟩ <;> cases h

/-- An operation is evaluated from where its lookup has ended. -/
theorem phase_of_looked {idx : ℕ} {cached : Option CacheLookup} (hun : passTheory.Unevaluated s op)
    (hc : passTheory.Looked s op idx cached) :
    s.phase op = some (.ofLookup (cached.map CacheLookup.search)) := by
  rcases cached with _ | ⟨key, _ | e, n⟩
  · exact hc
  · exact hc.1.searching hun
  · exact hc.1.searching hun

/-- What keeps something may be left. -/
theorem Keeping.out (h : Keeping s op) :
    ∃ p, s.phase op = some p ∧ (1 < p.stage → ∀ a : Answer π, p.Leaves a) := by
  rcases h with ⟨c, hc, h | h | h⟩ | h
  · exact ⟨_, h, fun h => by simp [Phase.stage] at h⟩
  · exact ⟨_, h, fun _ _ => trivial⟩
  · exact ⟨_, h, fun _ _ => hc⟩
  · exact ⟨_, h, fun _ _ => trivial⟩

end Writes

section Places

variable {E : Setup Op Blk σ π} {s s' : State Op Blk σ π} {op : Op} {i : ℕ}

/-- A pass begins. -/
theorem passTheory_enter (hs : passTheory.Inv s) (hact : op ∉ s.engine.active) :
    passTheory.contract.guar ((s.enter op).note (.entered op)) ∧
      passTheory.Inv ((s.enter op).note (.entered op)) ∧
      passTheory.Within ((s.enter op).note (.entered op)) op := by
  obtain ⟨p, hp, hidle⟩ := hs op
  obtain ⟨last, rfl⟩ : ∃ last, p = .idle last := by
    have h := hidle.mpr hact
    cases p <;> simp_all [Phase.isIdle]
  have hinv : PassInv ((s.enter op).note (.entered op)) := by
    refine hs.writeOwn rfl rfl hp (q := .entered) rfl (fun o ho => ?_) ?_
    · simp [State.note, State.enter, ho]
    · simp [State.note, State.enter, Phase.isIdle]
  exact ⟨hinv.conforms, hinv, Finset.mem_insert_self _ _⟩

/-- A pass ends, and no other operation notices. -/
theorem passTheory_leave {a : Answer π} (hact : op ∉ s.engine.active)
    (hd : passTheory.Does op ((s.enter op).note (.entered op)) s')
    (hdone : passTheory.Done s' op i a) :
    passTheory.contract.guar ((s'.leave op).note (.left op)) ∧
      passTheory.Inv ((s'.leave op).note (.left op)) ∧
      passTheory.Rel s ((s'.leave op).note (.left op)) ∧
      passTheory.Ans ((s'.leave op).note (.left op)) (.result op i) a := by
  obtain ⟨p, hp, hleave⟩ := hdone
  obtain ⟨pass, hpass⟩ : ∃ pass, p.advance (.left op : Event Op Blk π) = some (.idle pass) := by
    cases p <;> simp_all [Phase.advance, Phase.Leaves]
  have hactive : s'.engine.active = Insert.insert op s.engine.active := hd.own.active
  have hleft : ((s'.leave op).note (.left op)).engine.active = s.engine.active := by
    simp [State.note, State.leave, hactive, hact]
  have hinv : PassInv ((s'.leave op).note (.left op)) := by
    refine hd.inv.writeOwn rfl rfl hp hpass (fun o ho => ?_) ?_
    · simp [State.note, State.leave, ho]
    · simp [State.note, State.leave, Phase.isIdle]
  refine ⟨hinv.conforms, hinv, ⟨hleft, fun o ho => ?_⟩, trivial⟩
  have hne : o ≠ op := fun h => hact (h ▸ ho)
  have hsubject : ∀ e : Event Op Blk π, e.computed = some op →
      (passes Op Blk π).subject e ≠ some o := fun e he h =>
    hne (Option.some.inj (h.symm.trans he))
  exact (Monitor.Silent.cons (hsubject (.entered op) rfl) s.log).trans
    ((hd.own.silent o (Finset.mem_insert_of_mem ho) hne).trans
      (.cons (hsubject (.left op) rfl) s'.log))

/-- The operation is still only entered after `isCacheable`. -/
theorem passTheory_cacheable [DecidableEq Blk] {model : OpModel Op Blk σ π}
    {ask : Value Op Blk → EngineM Op Blk σ π (Answer π)} (ha : passTheory.Asks ask s.engine.active)
    (hs : passTheory.Inv s) (hw : passTheory.Within s op)
    (hlog : s.log.head? = some (.entered op)) :
    wp passTheory.contract (runScope E ask model.isCacheable) s fun r s' =>
      passTheory.Inv s' ∧
        passTheory.Rel s s' ∧
        (r = .completed false → passTheory.Uncached s' op) ∧
        (r = .completed true → passTheory.Eligible s' op) ∧
        (∀ b, r = .completed b → passTheory.Unevaluated s' op) ∧
        ∀ st, r = .signal st → ∀ i < E.program.numResults op, passTheory.Done s' op i
          (.signal st) :=
  wp_mono (passTheory_runScope ha hs _) fun r t ht => by
    have hentered : t.phase op = some .entered := by
      obtain ⟨log, hl⟩ := List.head?_eq_some_iff.mp hlog
      obtain ⟨p, hp, -⟩ := hs op
      rw [ht.2.phase hw, hp]
      rw [State.phase, hl, Monitor.state_cons_self (M := passes Op Blk π) rfl] at hp
      obtain ⟨r, -, hr⟩ := Option.bind_eq_some_iff.mp hp
      cases r with
      | idle last => exact hr.symm
      | evaluated lookup => rcases lookup with _ | c <;> cases hr
      | _ => cases hr
    exact ⟨ht.1, ht.2, fun _ => hentered, fun _ => hentered, fun _ _ p hp =>
      Or.inl (Option.some.inj (hp.symm.trans hentered)), fun _ _ _ _ => ⟨_, hentered, rfl⟩⟩

/-- A search is not an evaluation. -/
theorem passTheory_search {e : Event Op Blk π}
    (he : (∃ key, e = .searching op key) ∨ (∃ key n verdict, e = .examined op key n verdict))
    (hun : passTheory.Unevaluated s op) : passTheory.Unevaluated (s.note e) op := by
  intro p hp
  have hself : e.computed = some op := by
    rcases he with ⟨key, rfl⟩ | ⟨key, n, verdict, rfl⟩ <;> rfl
  rw [State.phase, State.note, Monitor.state_cons_self (M := passes Op Blk π) hself] at hp
  obtain ⟨r, hr, hadvance⟩ := Option.bind_eq_some_iff.mp hp
  rcases he with ⟨key, rfl⟩ | ⟨key, n, verdict, rfl⟩
  · rcases hun r hr with rfl | ⟨c, rfl⟩
    · exact Or.inr ⟨_, (Option.some.inj hadvance).symm⟩
    · cases hadvance
  · rcases hun r hr with rfl | ⟨c, rfl⟩
    · cases hadvance
    · obtain ⟨c', -, rfl⟩ := Option.map_eq_some_iff.mp hadvance
      exact Or.inr ⟨c', rfl⟩

/-- An operation is evaluated from where its lookup has ended. -/
theorem passTheory_charge {cached : Option CacheLookup} (hs : passTheory.Inv s)
    (hw : passTheory.Within s op) (hun : passTheory.Unevaluated s op)
    (hc : passTheory.Looked s op i cached) :
    passTheory.contract.guar (s.charge.note .charged) ∧
      passTheory.AllowsOwn op s ((s.charge.note .charged).note (.evaluating op))
        (passTheory.Ready ((s.charge.note .charged).note (.evaluating op)) op cached ∧
         passTheory.Running ((s.charge.note .charged).note (.evaluating op)) op) := by
  have hp := phase_of_looked hun hc
  have hallow : passTheory.Allows s (s.charge.note .charged) := passTheory_allows hs rfl rfl rfl
  refine ⟨(hallow trivial).1, fun hr => ?_⟩
  obtain ⟨-, hinv, hmoves⟩ := hallow trivial
  obtain ⟨hg, hi, hown, hwi, hphase⟩ := passTheory_noteOwn (s := s.charge.note .charged) _ _
    hinv hw rfl ((hmoves.phase hw).trans hp) Phase.advance_ofLookup rfl
    (fun h => by rw [Phase.stage_ofLookup] at h; omega) id hr
  exact ⟨hg, hi, ⟨hown.active, hown.silent, hown.past⟩, hwi, Or.inl hphase, _,
    hphase⟩

/-- An entry is appended after a search without a match. -/
theorem passTheory_append {key : HashCode} {n : ℕ} {l : List (Answer π)} (hs : passTheory.Inv s)
    (hw : passTheory.Within s op) (h : passTheory.Missed s op key n)
    (hl : passTheory.Results s op l) :
    wp passTheory.contract (appendEntry E op key l) s fun e s' =>
      passTheory.Inv s' ∧
        passTheory.Own op s s' ∧
        passTheory.Within s' op ∧
        passTheory.Kept s' op e := by
  obtain ⟨p, hp, hadvance, hstage⟩ : ∃ p, s.phase op = some p ∧
      p.advance (.appended op key s.cache.arena.length : Event Op Blk π) = some .appended ∧
        p.stage ≤ 2 ∧ p.lookedUp = true := by
    rcases h with h | h | h
    · obtain ⟨b, p, hp, hstage, -⟩ := hl
      obtain rfl := Option.some.inj (h.symm.trans hp)
      simp [Phase.stage] at hstage
    · exact ⟨_, h, by simp [Phase.advance], le_rfl, rfl⟩
    · exact ⟨_, h, by simp [Phase.advance], le_rfl, rfl⟩
  refine wp_bind (wp_read (wp_bind (wp_record fun hr => ?_)))
  obtain ⟨hg, hi, hown, hwi, happended⟩ := passTheory_allowsOwn
    (t := (s.append op key l.length).note (.appended op key s.cache.arena.length)) hs hw rfl rfl
    rfl hp hadvance rfl (fun _ => ⟨hstage.1, hstage.2.symm⟩) id hr
  refine ⟨hg, wp_bind (wp_mono (passTheory_fill hi) fun _ u hu => wp_pure ?_)⟩
  have hactive : u.engine.active = s.engine.active := hu.2.active
  refine ⟨hu.1, ⟨hactive, fun o ho hne => (hown.silent o ho hne).trans (hu.2.silent o ho),
    fun hop n b hn => ?_⟩, ?_, Or.inr ((hu.2.phase hwi).trans happended)⟩
  · rw [PastStage, hu.2.phase hwi]
    exact hown.past hop n b hn
  · change op ∈ u.engine.active
    rwa [hactive]

end Places

variable [DecidableEq Blk]

/-- **The events about an operation are in turn under arbitrary models.** -/
theorem passTheory_sound [Fintype Op] (E : Setup Op Blk σ π) : passTheory.Sound E where
  rel_refl := .refl
  rel_trans _ _ _ h h' := h.trans h'
  own_of_rel op s s' h := by
    refine ⟨h.active, fun o ho _ => h.silent o ho, fun hop n b hn => ?_⟩
    rwa [PastStage, h.phase hop]
  own_trans op a b c h h' := by
    exact ⟨h'.active.trans h.active,
      fun o ho hne => (h.silent o ho hne).trans (h'.silent o (h.active.symm ▸ ho) hne),
      fun hop n b hn => h'.past (h.active.symm ▸ hop) n b (h.past hop n b hn)⟩
  own_active _ _ _ h := h.active
  within_stable s s' op hm hw := by
    change op ∈ s'.engine.active
    rwa [hm.rel.active]
  unevaluated_stable s s' op hm hw h := by
    intro p hp
    exact h p ((hm.rel.phase hw).symm.trans hp)
  running_stable s s' op hm hw h := by
    change ∃ lookup, s'.phase op = _
    rw [hm.rel.phase hw]
    exact h
  missed_stable s s' op key n hm hw h := SearchAt.stable h hm.rel hw
  found_stable s s' op key n e hm hw h := SearchAt.stable h hm.rel hw
  kept_stable s s' op e hm hw h := Keeping.stable h hm.rel hw
  results_stable s s' op l _ hd h := h.imp (hd.own.past (hd.own.active ▸ hd.within) 0)
  unanswered _ _ _ _ _ := trivial
  memo_hit _ _ _ _ _ _ := trivial
  memo_add s s' v a _ hm _ _ _ := passTheory_allows hm.inv rfl rfl rfl
  ans_memoized _ _ _ _ _ := trivial
  arg _ _ _ _ _ := trivial
  invalid _ _ _ _ _ _ := trivial
  constant s op i _ hs _ _ := by
    refine wp_mono (Theory.wp_evaluateConstant (T := passTheory) hs (.refl s)
      (fun attr type payload => passTheory_allows hs rfl rfl rfl) fun t ht => ?_)
      fun r t ht => ⟨ht.1, ht.2, trivial⟩
    cases ht with
    | _ => exact passTheory_allows hs rfl rfl rfl
  cycle _ _ _ _ _ _ _ _ _ := trivial
  enter _ _ _ _ _ hs _ _ _ hact _ := passTheory_enter hs hact
  leave _ _ _ _ _ _ _ _ hact hd hdone _ := passTheory_leave hact hd hdone
  cacheable _ _ _ _ _ ha hs hw hlog := passTheory_cacheable ha hs hw hlog
  hash s op model ask _ ha hs hw hentered _ :=
    wp_mono (passTheory_runScope ha hs _) fun r t ht => by
      have hentered' : t.phase op = some .entered := (ht.2.phase hw).trans hentered
      exact ⟨ht.1, ht.2, fun _ _ => hentered', fun _ _ _ _ => ⟨_, hentered', rfl⟩⟩
  unevaluated_search _ _ _ he hun := passTheory_search he hun
  searching s op key hs hw h := passTheory_noteOwn (.searching op key) (.searching ⟨key, 0, false⟩)
    hs hw rfl h rfl rfl (fun h => absurd h (lt_irrefl 0)) Or.inl
  candidate_range _ _ _ _ _ _ _ := trivial
  scan_length _ _ _ _ _ _ _ := trivial
  own s op key n e entry hs hw h _ _ _ := passTheory_found hs hw h rfl
  shape s op key n e entry hs hw h _ _ _ _ := passTheory_missed hs hw h rfl
  equivalent s op key n e entry model ask _ ha hs _ _ _ _ _ _ :=
    wp_mono (passTheory_runScope ha hs _) fun r t ht => ⟨ht.1, ht.2, trivial⟩
  skipped s op key n e entry st hs hw h _ _ _ _ _ := passTheory_missed hs hw h rfl
  different s op key n e entry hs hw h _ _ _ _ _ := passTheory_missed hs hw h rfl
  matching s op key n e entry hs hw h _ _ _ _ _ := passTheory_found hs hw h rfl
  exhausted s op i cached hs _ h _ _ _ := by
    obtain ⟨p, hp, -⟩ := hs op
    rcases h p hp with rfl | ⟨c, rfl⟩
    · exact ⟨_, hp, rfl⟩
    · exact ⟨_, hp, Or.inr rfl⟩
  charge _ _ _ _ hs hw hun _ hc _ _ := passTheory_charge hs hw hun hc
  evaluates s op model ask cached _ ha hs hw hc :=
    wp_mono (passTheory_runScope ha hs _) fun l t ht => by
      have hc' : t.phase op = some (.evaluating (cached.map CacheLookup.search)) ∨
          t.phase op = some (.evaluated (cached.map CacheLookup.search)) := by
        rw [ht.2.phase hw]
        exact hc
      refine ⟨ht.1, ht.2, ?_, hc'⟩
      exact hc'.elim (fun h => ⟨_, _, h, Nat.zero_lt_one, rfl⟩) fun h => ⟨_, _, h, Nat.two_pos, rfl⟩
  count _ _ _ _ _ _ _ := trivial
  evaluated s op l cached hs hw hrun hc _ _ := by
    obtain ⟨lookup, hlookup⟩ := hrun
    have hcached : s.phase op = some (.evaluating (cached.map CacheLookup.search)) :=
      hc.resolve_right (by simp [hlookup])
    exact passTheory_noteOwn (.evaluated op l) (.evaluated (cached.map CacheLookup.search)) hs hw
      rfl hcached rfl rfl (fun _ => ⟨Nat.le_succ 1, rfl⟩)
      fun h => ⟨Or.inr h, _, _, h, Nat.one_lt_two, rfl⟩
  evaluated_stable s s' op l _ hd h := h.imp (hd.own.past (hd.own.active ▸ hd.within) 1)
  ready_stable s s' op cached hm hw h := by
    change s'.phase op = _ ∨ s'.phase op = _
    rw [hm.rel.phase hw]
    exact h
  ready s op cached l hs _ hlog hc := by
    obtain ⟨p, hp, -⟩ := hs op
    obtain ⟨lookup, rfl⟩ := phase_evaluated hlog hp
    have hphase := hc.resolve_left (by simp [hp])
    rcases cached with ⟨key, _ | e, n⟩
    · exact Or.inr (Or.inl hphase)
    · exact Or.inl ⟨_, rfl, Or.inr (Or.inl hphase)⟩
  reuse s op key n e l hs _ _ _ := passTheory_allows hs rfl rfl rfl
  fill s₀ s op e l hs _ _ _ _ _ _ _ := passTheory_fill hs
  append _ _ _ _ _ _ hs hw h _ hl _ _ _ _ := passTheory_append hs hw h hl
  kept s op key n e _ _ h := Or.inl ⟨_, rfl, h⟩
  kept_range _ _ _ _ _ _ _ _ := trivial
  kept_slot s op e entry i a _ _ h _ _ := h.out
  unstored s op l cached _ hs _ _ hlog _ := by
    obtain ⟨p, hp, -⟩ := hs op
    obtain ⟨lookup, rfl⟩ := phase_evaluated hlog hp
    exact ⟨lookup, hp⟩
  unstored_stable s s' op l hm _ hw h := by
    change ∃ lookup, s'.phase op = _
    rw [hm.rel.phase hw]
    exact h
  result s op l i a _ _ _ _ h := by
    rcases h with ⟨lookup, h⟩ | ⟨_, _, h, -⟩
    · exact ⟨_, h, fun _ _ => trivial⟩
    · exact Keeping.out h
  memo_own s op i a hs _ _ _ _ _ := passTheory_allows hs rfl rfl rfl
  hit s op key n e entry i a _ _ hun h _ _ := by
    rcases h with h | h | h
    · exact ⟨_, h, Or.inl rfl⟩
    · rcases hun _ h with h | ⟨c, h⟩ <;> cases h
    · rcases hun _ h with h | ⟨c, h⟩ <;> cases h
  finish s op l i a _ _ h _ _ hout := by
    obtain ⟨b, p, hp, hstage, -⟩ := h
    obtain ⟨q, hq, hleaves⟩ := hout
    obtain rfl := Option.some.inj (hp.symm.trans hq)
    exact ⟨p, hp, hleaves hstage a⟩

/-! ## What a query reports -/

section Queries

variable [Fintype Op] {E : Setup Op Blk σ π} {s : State Op Blk σ π}

/-- The code for `op` ends in the state `t`, with the answer and the outcome of the pass that ends
then. -/
structure PassEnds (op : Op) (idx : ℕ) (a : Answer π) (outcome : CacheOutcome)
    (t : State Op Blk σ π) : Prop where
  inv : PassInv t
  pass : ∃ p pass, t.phase op = some p ∧
    p.advance (.left op : Event Op Blk π) = some (.idle (some pass)) ∧
      ((outcome = .hit → a.isCompleted = true) → pass.LedTo a outcome)
  slot : outcome = .hit → ∃ (e : ℕ) (entry : CacheEntry Op π), t.cache.arena[e]? = some entry ∧
    entry.results[idx]? = some (some a)

section Compute

variable {ask : Value Op Blk → EngineM Op Blk σ π (Answer π)} {op : Op}
  {model : OpModel Op Blk σ π} {fuel idx : ℕ}

/-- The evaluation of an operation that was not found: it is a miss if it was looked up. -/
theorem wp_evaluateOp_pass (hm : E.models.op op = some model) {cached : Option CacheLookup}
    (ha : passTheory.Asks ask s.engine.active) (hf : Fintype.card Op < fuel) (hs : PassInv s)
    (hw : op ∈ s.engine.active) (hun : passTheory.Unevaluated s op)
    (hi : idx < E.program.numResults op) (hc : passTheory.Looked s op idx cached) :
    wp passTheory.contract (evaluateOp E ask fuel op idx model cached) s fun a t =>
      t.engine.active = s.engine.active ∧
        PassEnds op idx a (if cached.isSome then .miss else .none) t := by
  have hp := phase_of_looked hun hc
  refine wp_bind (wp_declareCost (fun _ => wp_pure ⟨rfl, hs, ?_, ?_⟩) fun h0 hr => ?_)
  · cases cached with
    | none => exact ⟨_, _, hp, rfl, fun _ => ⟨rfl, by simp⟩⟩
    | some cached => exact ⟨_, _, hp, rfl, fun _ => ⟨rfl, fun _ _ _ ha => by cases ha; rfl⟩⟩
  · cases cached <;> simp
  · obtain ⟨hg, hcharged⟩ :=
      (passTheory_sound E).wp_evaluateCharged hm ha hf hs hw hun hi hc h0 hr
    refine ⟨hg, wp_mono hcharged ?_⟩
    rintro a t ⟨hd, hd', ⟨p, hp', hleaves⟩, -, b, q, hq, hstage, -⟩
    obtain rfl := Option.some.inj (hp'.symm.trans hq)
    -- It was evaluated after the lookup, if there was one.
    have hevaluating : ((s.charge.note .charged).note (.evaluating op)).phase op =
        some (.evaluating (cached.map CacheLookup.search)) :=
      (phase_cons rfl rfl ((phase_cons_of_ne rfl (by simp [Event.computed])).trans hp)).trans
        Phase.advance_ofLookup
    obtain ⟨r, hr', -, hlook⟩ := hd'.own.past hw 0 _ ⟨_, hevaluating, Nat.zero_lt_one, rfl⟩
    obtain rfl := Option.some.inj (hp'.symm.trans hr')
    have hlook : p.lookedUp = cached.isSome := by simpa [Phase.lookedUp] using hlook
    refine ⟨hd.own.active, hd.inv, ⟨p, .evaluated p.lookedUp, hp', ?_, ?_⟩, ?_⟩
    · cases p <;> simp_all [Phase.stage, Phase.advance, Phase.lookedUp, Phase.Leaves]
    · rw [hlook]
      exact fun _ => ⟨rfl, by simp⟩
    · cases cached <;> simp

/-- A lookup that ends with a signal has not begun to search. -/
theorem wp_lookup_pass (hm : E.models.op op = some model)
    (ha : passTheory.Asks ask s.engine.active) (hf : Fintype.card Op < fuel) (hs : PassInv s)
    (hw : op ∈ s.engine.active) (hp : s.phase op = some .entered) :
    wp passTheory.contract (lookup E ask fuel op model) s fun r t =>
      passTheory.Does op s t ∧ passTheory.Unevaluated t op ∧ match r with
        | .signal _ => t.phase op = some .entered
        | .completed ⟨key, none, n⟩ =>
          passTheory.Missed t op key n ∧ (t.bucket key)[n]? = none
        | .completed ⟨key, some entry, n⟩ => passTheory.Found t op key n entry := by
  have h := passTheory_sound E
  refine wp_bind (Theory.wp_moves hs (continuing_runScope ha.continuing _)
    (P := fun _ t => t.phase op = some .entered) (wp_mono (passTheory_runScope ha hs _)
      fun _ t ht => ⟨ht.1, ht.2, (ht.2.phase hw).trans hp⟩) fun r t ht hp' => ?_)
  have hd := h.does_of_moves ht hw
  have hun : passTheory.Unevaluated t op := fun p hp =>
    Or.inl (Option.some.inj (hp.symm.trans hp'))
  rcases r with key | st
  · refine wp_bind (Theory.wp_noteOwn (by simp) (h.searching t op key ht.inv hd.within hp') ?_)
    intro hd' hn
    have hd'' := h.does_trans hd hd'
    have hun' := h.unevaluated_search t op _ (Or.inl ⟨key, rfl⟩) hun
    refine wp_bind (wp_mono (h.wp_findEquivalent hm (hd''.own.active.symm ▸ ha) (by omega)
      hd''.inv hd''.within hn) ?_)
    rintro ⟨_ | entry, n⟩ u hu
    · exact wp_pure ⟨h.does_trans hd'' hu.1, hu.2.1 hun', hu.2.2⟩
    · exact wp_pure ⟨h.does_trans hd'' hu.1, hu.2.1 hun', hu.2.2⟩
  · exact wp_pure ⟨hd, hun, hp'⟩

/-- Inside the cycle guard. -/
theorem wp_computeActive_pass (hm : E.models.op op = some model)
    (ha : passTheory.Asks ask s.engine.active) (hf : Fintype.card Op < fuel) (hs : PassInv s)
    (hw : op ∈ s.engine.active) (hp : s.phase op = some .entered)
    (hi : idx < E.program.numResults op) :
    wp passTheory.contract (computeActive E ask fuel op idx model) s fun r t =>
      t.engine.active = s.engine.active ∧ PassEnds op idx r.1 r.2 t := by
  have h := passTheory_sound E
  have asks : ∀ t : State Op Blk σ π, t.engine.active = s.engine.active →
      passTheory.Asks ask t.engine.active := fun t ht => ht.symm ▸ ha
  -- The evaluation, after `s` has become `t`.
  have eval : ∀ t cached, passTheory.Does op s t → passTheory.Unevaluated t op →
      passTheory.Looked t op idx cached →
      wp passTheory.contract (evaluateOp E ask fuel op idx model cached >>= fun a =>
        pure (a, if cached.isSome then CacheOutcome.miss else .none)) t fun r t =>
          t.engine.active = s.engine.active ∧ PassEnds op idx r.1 r.2 t := by
    intro t cached ht hun hc
    refine wp_bind (wp_mono (wp_evaluateOp_pass hm (asks t ht.own.active) hf ht.inv ht.within hun hi
      hc) ?_)
    exact fun a u hu => wp_pure ⟨hu.1.trans ht.own.active, hu.2⟩
  -- A signal before the operation was looked up.
  have undecided : ∀ t st, passTheory.Does op s t → t.phase op = some .entered →
      t.engine.active = s.engine.active ∧ PassEnds op idx (.signal st) .none t :=
    fun t st ht hp => ⟨ht.own.active, ht.inv, ⟨_, .undecided, hp, rfl, fun _ => ⟨rfl, by simp⟩⟩,
      by simp⟩
  refine wp_bind (Theory.wp_moves hs (continuing_runScope ha.continuing _)
    (P := fun _ t => t.phase op = some .entered) (wp_mono (passTheory_runScope ha hs _)
      fun _ t ht => ⟨ht.1, ht.2, (ht.2.phase hw).trans hp⟩) fun r t ht hp' => ?_)
  have hd := h.does_of_moves ht hw
  rcases r with (_ | _) | st
  · exact eval t none hd (fun p hp => Or.inl (Option.some.inj (hp.symm.trans hp'))) hp'
  · refine wp_bind (wp_mono (wp_lookup_pass hm (asks t hd.own.active) hf hd.inv hd.within hp') ?_)
    rintro (⟨key, _ | entry, n⟩ | st) u ⟨hu, hun, hlook⟩
    · exact eval u (some ⟨key, none, n⟩) (h.does_trans hd hu) hun hlook
    · refine wp_bind (wp_readSlot (fun _ => trivial) fun ent slot hent hslot => ?_)
      have hdu := h.does_trans hd hu
      cases slot with
      | none => exact eval u (some ⟨key, some entry, n⟩) hdu hun ⟨hlook, ent, hent, hslot⟩
      | some hit =>
        refine wp_pure ⟨hdu.own.active, hdu.inv, ⟨_, .searched true, hlook.searching hun, rfl,
          fun hcomp => ?_⟩, fun _ => ⟨entry, ent, hent, hslot⟩⟩
        cases hit with
        | completed value => exact ⟨rfl, by simp⟩
        | signal st => cases hcomp rfl
    · exact wp_pure (undecided u st (h.does_trans hd hu) hlook)
  · exact wp_pure (undecided t st hd hp')

/-- The last pass of `op` has led to the answer and the outcome. -/
structure Passed (op : Op) (idx : ℕ) (a : Answer π) (outcome : CacheOutcome)
    (t : State Op Blk σ π) : Prop where
  pass : ∃ pass, t.phase op = some (.idle (some pass)) ∧
    ((outcome = .hit → a.isCompleted = true) → pass.LedTo a outcome)
  slot : outcome = .hit → ∃ (e : ℕ) (entry : CacheEntry Op π), t.cache.arena[e]? = some entry ∧
    entry.results[idx]? = some (some a)

theorem wp_computeOp_pass (hm : E.models.op op = some model) (hact : op ∉ s.engine.active)
    (ha : passTheory.Asks ask (Insert.insert op s.engine.active)) (hf : Fintype.card Op < fuel)
    (hs : PassInv s) (hi : idx < E.program.numResults op) :
    wp passTheory.contract (computeOp E ask fuel op idx model) s fun r t =>
      (PassInv t ∧ t.engine.active = s.engine.active) ∧ Passed op idx r.1 r.2 t := by
  refine wp_bind (wp_read ?_)
  rw [if_neg hact]
  refine wp_bind (wp_record fun hr => ?_)
  obtain ⟨hg, hinv, hw⟩ :=
    (passTheory_sound E).enter s op idx model hm hs trivial trivial hi hact hr
  have hp : ((s.enter op).note (.entered op)).phase op = some .entered := by
    obtain ⟨p, hp, hidle⟩ := hs op
    have h := hidle.mpr hact
    cases p <;> simp only [Phase.isIdle, Bool.false_eq_true] at h
    exact (phase_cons rfl rfl hp).trans rfl
  refine ⟨hg, wp_bind (wp_mono (wp_computeActive_pass hm ha hf hinv hw hp hi) ?_)⟩
  rintro ⟨a, outcome⟩ t ⟨hactive, ht⟩
  refine wp_bind (wp_record fun _ => ?_)
  obtain ⟨p, pass, hp', hleft, houtcome⟩ := ht.pass
  have hactive : t.engine.active = Insert.insert op s.engine.active := hactive
  have hleave : ((t.leave op).note (.left op)).engine.active = s.engine.active := by
    simp [State.note, State.leave, hactive, hact]
  have hinv' : PassInv ((t.leave op).note (.left op)) := by
    refine ht.inv.writeOwn rfl rfl hp' hleft (fun o ho => ?_) ?_
    · simp [State.note, State.leave, ho]
    · simp [State.note, State.leave, Phase.isIdle]
  exact ⟨hinv'.conforms, wp_pure ⟨⟨hinv', hleave⟩, ⟨pass, (phase_cons rfl rfl hp').trans hleft,
    houtcome⟩, ht.slot⟩⟩

end Compute

/-- The pass that a computation of a value makes. -/
theorem wp_compute_pass (hs : PassInv s) (hactive : s.engine.active = ∅) (value : Value Op Blk) :
    wp passTheory.contract (compute E (Fintype.card Op + 1) (Fintype.card Op + 1) value) s
      fun r t => (PassInv t ∧ t.engine.active = ∅) ∧ ∀ op idx, value = .result op idx →
        (E.models.op op).isSome = true → Passed op idx r.1 r.2 t := by
  have h := passTheory_sound E
  have hcard : Fintype.card Op < Fintype.card Op + 1 := Nat.lt_succ_self _
  cases value with
  | arg b i =>
    refine wp_mono (h.wp_compute hcard hs trivial trivial (by omega)) fun r t ht => ?_
    exact ⟨⟨ht.1, ht.2.1.active.trans hactive⟩, fun _ _ h => by cases h⟩
  | result op idx =>
    cases hm : E.models.op op with
    | none =>
      refine wp_mono (h.wp_compute hcard hs trivial trivial (by omega)) fun r t ht => ?_
      refine ⟨⟨ht.1, ht.2.1.active.trans hactive⟩, fun op' idx' heq hsome => ?_⟩
      obtain ⟨rfl, rfl⟩ := Value.result.inj heq
      simp [hm] at hsome
    | some model =>
      refine wp_bind (wp_require (fun _ => trivial) fun hi => ?_)
      simp only [hm]
      refine wp_mono (wp_computeOp_pass hm (by simp [hactive])
        (h.asks hcard (by rw [hactive]; simp)) hcard hs (by simpa using hi)) fun r t ht => ?_
      refine ⟨⟨ht.1.1, ht.1.2.trans hactive⟩, fun op' idx' heq _ => ?_⟩
      obtain ⟨rfl, rfl⟩ := Value.result.inj heq
      exact ht.2

/-- A pass that led to a value led to any copy of it. -/
theorem Pass.LedTo.known {pass : Pass} {v w : EvalValue π} {outcome : CacheOutcome}
    (h : pass.LedTo (.known v) outcome) : pass.LedTo (.known w) outcome := by
  refine ⟨h.1.trans ?_, fun _ _ _ ha => by cases ha⟩
  cases pass <;> rfl

/-- A query is told what the last pass of the operation came to. -/
theorem passTheory_query (hs : PassInv s) (hactive : s.engine.active = ∅) (engine budget : ℕ)
    (value : Value Op Blk) :
    wp passTheory.contract (query E engine budget value) s fun r t =>
      (PassInv t ∧ t.engine.active = ∅) ∧ ∀ op idx, value = .result op idx →
        (E.models.op op).isSome = true → (∃ pass, t.phase op = some (.idle (some pass)) ∧
          ((r.2 = .hit → r.1.isCompleted = true) → pass.LedTo r.1 r.2)) ∧
        (r.2 = .hit → ∃ (e : ℕ) (entry : CacheEntry Op π) (b : Answer π),
          t.cache.arena[e]? = some entry ∧ entry.results[idx]? = some (some b) ∧
          ∀ v, b = .known v → ∃ copy log, r.1 = .known copy ∧
            t.log = .queryEnded engine value r.1 :: .handedOut v copy :: log) := by
  refine wp_query (fun _ => trivial) fun _ => ?_
  have hbegin : PassInv ((s.beginQuery engine budget).note (.queryStarted engine budget value)) :=
    hs.write rfl rfl rfl
  refine ⟨hbegin.conforms, wp_mono (wp_compute_pass hbegin hactive value) ?_⟩
  rintro ⟨a, outcome⟩ u ⟨⟨hu, hempty⟩, hpass⟩
  refine wp_handOut (fun hunknown => ⟨fun _ => trivial, fun _ _ => ?_⟩) fun v hv => ?_
  · have hend : PassInv (u.endQuery.note (.queryEnded engine value a)) := hu.write rfl rfl rfl
    refine ⟨hend.conforms, ⟨hend, hempty⟩, fun op idx hvalue hm => ?_⟩
    obtain ⟨⟨pass, hp, houtcome⟩, hslot⟩ := hpass op idx hvalue hm
    refine ⟨⟨pass, (phase_cons_of_ne rfl (by simp [Event.computed])).trans hp, houtcome⟩,
      fun hhit => ?_⟩
    obtain ⟨e, entry, he, hidx⟩ := hslot hhit
    exact ⟨e, entry, a, he, hidx, fun v hv => by simp [hv, Answer.isKnown] at hunknown⟩
  · intro r t _
    have hout : PassInv t := hu.write (t := t) rfl rfl rfl
    have hend : PassInv (t.endQuery.note (.queryEnded engine value (.known r.value))) :=
      hout.write rfl rfl rfl
    refine ⟨hout.conforms, fun _ => trivial, fun _ _ => ⟨hend.conforms, ⟨hend, hempty⟩, ?_⟩⟩
    intro op idx hvalue hm
    obtain ⟨⟨pass, hp, houtcome⟩, hslot⟩ := hpass op idx hvalue hm
    refine ⟨⟨pass, ?_, fun _ => ?_⟩, fun hhit => ?_⟩
    · exact (phase_cons_of_ne (s := t) rfl (by simp [Event.computed])).trans
        ((phase_cons_of_ne (s := u) rfl (by simp [Event.computed])).trans hp)
    · obtain rfl : a = .known v := hv
      exact (houtcome fun _ => rfl).known
    · obtain ⟨e, entry, he, hidx⟩ := hslot hhit
      refine ⟨e, entry, a, he, hidx, fun w hw => ⟨r.value, u.log, rfl, ?_⟩⟩
      obtain rfl : v = w := by simpa using hv.symm.trans hw
      rfl

variable {past : List (State Op Blk σ π)}

/-- Between queries no operation is being computed, and no event is out of turn. -/
theorem passTheory_history (h : History E past s) :
    (PassInv s ∧ s.engine.active = ∅) ∧
      ∀ t ∈ past, (passes Op Blk π).Conforms t.log := by
  have hinit : ∀ w, PassInv (State.init w : State Op Blk σ π) := by
    intro w op
    exact ⟨.idle none, rfl, by simp [Phase.isIdle, State.init, Engine.idle]⟩
  refine h.invariant (J := fun s => PassInv s ∧ s.engine.active = ∅)
    (K := fun t => (passes Op Blk π).Conforms t.log)
    (fun w => ⟨⟨hinit w, rfl⟩, (hinit w).conforms⟩) (fun s engine budget value _ hs => ?_)
    fun s hs => ?_
  · obtain ⟨hg, hq, -⟩ := passTheory_query (E := E) hs.1 hs.2 engine budget value fun _ _ => trivial
    exact ⟨hg, fun r t hr => (hq r t hr).1⟩
  · have hclear : PassInv (s.clear.note .cleared) := hs.1.write rfl rfl rfl
    exact ⟨⟨hclear, hs.2⟩, hclear.conforms⟩

/-- **The events about an operation are in turn.**  In every state that any sequence of queries goes
through, and whatever the models ask for, the log tells of every operation that it was computed pass
by pass: it is entered, searched for from the first candidate on, at most until one matches, then
evaluated at most once, searched for from where the lookup had ended, appended, and left, before it
is entered again. -/
theorem passes_in_order (h : History E past s) (engine budget : ℕ) (value : Value Op Blk) :
    ∀ t ∈ past ++ (query E engine budget value s).visited, (passes Op Blk π).Conforms t.log := by
  obtain ⟨hs, hpast⟩ := passTheory_history h
  obtain ⟨hg, -⟩ := passTheory_query (E := E) hs.1 hs.2 engine budget value fun _ _ => trivial
  intro t ht
  rcases List.mem_append.mp ht with ht | ht
  · exact hpast t ht
  · exact hg t ht

/-- Models that ask for operands in every method. -/
theorem passes_in_order_reentrant :
    ∃ t ∈ (query reentrantSetup 0 100 (.result 8 0) (State.init ())).visited,
      t.log.head?.any Event.isAppended = true ∧ (passes _ _ _).Conforms t.log := by
  have happend : ((query reentrantSetup 0 100 (.result 8 0) (State.init ())).visited.any fun t =>
      t.log.head?.any Event.isAppended) = true := by decide +kernel
  obtain ⟨t, ht, hlog⟩ := List.any_eq_true.mp happend
  exact ⟨t, ht, hlog, passes_in_order (.init ()) 0 100 (.result 8 0) t (List.mem_append_right _ ht)⟩

/-- The answer of a hit is a copy of what a slot has for the result. -/
theorem query_hit (h : History E past s) {engine budget : ℕ} {op : Op} {idx : ℕ}
    (hm : (E.models.op op).isSome = true) (hv : E.program.Valid (.result op idx)) {a : Answer π}
    {s' : State Op Blk σ π}
    (hr : (query E engine budget (.result op idx) s).outcome = .ok ((a, .hit), s')) :
    ∃ (e : ℕ) (entry : CacheEntry Op π) (v copy : EvalValue π) (log : List (Event Op Blk π)),
      s'.cache.arena[e]? = some entry ∧ entry.results[idx]? = some (some (.known v)) ∧
        a = .known copy ∧
        s'.log = .queryEnded engine (.result op idx) a :: .handedOut v copy :: log := by
  obtain ⟨⟨hs, hactive⟩, -⟩ := passTheory_history h
  obtain ⟨-, hq, -⟩ := passTheory_query (E := E) hs hactive engine budget (.result op idx)
    fun _ _ => trivial
  obtain ⟨e, entry, b, he, hidx, hcopy⟩ := ((hq _ _ hr).2 op idx rfl hm).2 rfl
  obtain ⟨v, rfl, -⟩ :=
    (cacheTheory_past (h.query engine budget _ hv hr)).1.1.known e entry idx b he hidx
  obtain ⟨copy, log, ha, hlog⟩ := hcopy v rfl
  exact ⟨e, entry, v, copy, log, he, hidx, ha, hlog⟩

/-- **The outcome of a query is what it says.**  Whatever the models do, a query of a result of an
operation with a model tells how the last pass of the operation went: without an outcome it was not
looked up, after a miss it was, and was then evaluated, or there was no budget left and the answer
says so.  After a hit it was not evaluated, and the answer is a copy of what a slot of the cache has
for the result. -/
theorem outcome_of_pass (h : History E past s) (engine budget : ℕ) {op : Op} {idx : ℕ}
    (hm : (E.models.op op).isSome = true) (hv : E.program.Valid (.result op idx)) {a : Answer π}
    {outcome : CacheOutcome} {s' : State Op Blk σ π}
    (hr : (query E engine budget (.result op idx) s).outcome = .ok ((a, outcome), s')) :
    (∃ pass, s'.phase op = some (.idle (some pass)) ∧ outcome = pass.outcome a ∧
      ∀ found st, pass = .searched found → a = .signal st → st = .exhausted) ∧
      (outcome = .hit → ∃ (e : ℕ) (entry : CacheEntry Op π) (v copy : EvalValue π)
        (log : List (Event Op Blk π)), s'.cache.arena[e]? = some entry ∧
          entry.results[idx]? = some (some (.known v)) ∧ a = .known copy ∧
          s'.log = .queryEnded engine (.result op idx) a :: .handedOut v copy :: log) := by
  obtain ⟨⟨hs, hactive⟩, -⟩ := passTheory_history h
  obtain ⟨-, hq, -⟩ := passTheory_query (E := E) hs hactive engine budget (.result op idx)
    fun _ _ => trivial
  obtain ⟨⟨pass, hp, houtcome⟩, -⟩ := (hq _ _ hr).2 op idx rfl hm
  refine ⟨⟨pass, hp, houtcome fun hhit => ?_⟩, fun hhit => ?_⟩
  · obtain rfl : outcome = .hit := hhit
    obtain ⟨-, -, -, copy, -, -, -, rfl, -⟩ := query_hit h hm hv hr
    rfl
  · subst hhit
    exact query_hit h hm hv hr

/-- The second query of a value is a hit, and without a budget the first one is a miss. -/
theorem outcome_of_pass_reentrant :
    (∃ (s s' : State (Fin 10) (Fin 2) Unit Unit) (a : Answer Unit),
      (query reentrantSetup 0 100 (.result 8 0) s).outcome = .ok ((a, .hit), s') ∧
        (∃ pass, s'.phase 8 = some (.idle (some pass)) ∧ .hit = pass.outcome a) ∧
        ∃ (e : ℕ) (entry : CacheEntry (Fin 10) Unit) (v copy : EvalValue Unit)
          (log : List (Event (Fin 10) (Fin 2) Unit)), s'.cache.arena[e]? = some entry ∧
            entry.results[0]? = some (some (.known v)) ∧ a = .known copy ∧
            s'.log = .queryEnded 0 (.result 8 0) a :: .handedOut v copy :: log) ∧
      ∃ (s' : State (Fin 10) (Fin 2) Unit Unit) (st : Signal) (pass : Pass),
        (query reentrantSetup 0 0 (.result 8 0) (State.init ())).outcome =
            .ok ((.signal st, .miss), s') ∧
          s'.phase 8 = some (.idle (some pass)) ∧ .miss = pass.outcome (.signal st : Answer Unit) ∧
          ∀ found, pass = .searched found → st = .exhausted := by
  have hv : loopProgram.Valid (.result 8 0) := by decide
  constructor
  · have hruns : ((query reentrantSetup 0 100 (.result 8 0) (State.init ())).outcome.toOption.bind
        fun r => (query reentrantSetup 0 100 (.result 8 0) r.2).value?.map fun r => r.2) =
          some .hit := by decide +kernel
    obtain ⟨⟨r, s⟩, hs, hsecond⟩ := Option.bind_eq_some_iff.mp hruns
    have hs : (query reentrantSetup 0 100 (.result 8 0) (State.init ())).outcome = .ok (r, s) := by
      cases h : (query reentrantSetup 0 100 (.result 8 0) (State.init ())).outcome with
      | error x => simp [h, Except.toOption] at hs
      | ok q => simpa [h, Except.toOption] using hs
    obtain ⟨⟨a, outcome⟩, ha, rfl⟩ := Option.map_eq_some_iff.mp hsecond
    obtain ⟨s', hs'⟩ := Run.outcome_of_value? ha
    obtain ⟨⟨pass, hpass, hled⟩, hslot⟩ := outcome_of_pass
      (.query 0 100 (.result 8 0) hv (.init ()) hs) 0 100 rfl hv hs'
    exact ⟨s, s', a, hs', ⟨pass, hpass, hled.1⟩, hslot rfl⟩
  · have hrun : (query reentrantSetup 0 0 (.result 8 0) (State.init ())).value? =
        some (.signal .exhausted, .miss) := by decide +kernel
    obtain ⟨s', hs'⟩ := Run.outcome_of_value? hrun
    obtain ⟨⟨pass, hpass, hled, hsignal⟩, -⟩ := outcome_of_pass (.init ()) 0 0 rfl hv hs'
    exact ⟨s', .exhausted, pass, hs', hpass, hled, fun found hfound => hsignal found _ hfound rfl⟩

end Queries

end MlirInterpreter
