import MlirInterpreter.Engine.Handles
import MlirInterpreter.Foundations.Dialogue

/-!
# Answers are of the type of their value

What it takes for every known answer to be a value of the type of the value it is about, for any
notion `T` of the payloads of a type.  The models are arbitrary, except that they keep to `typing`:
as long as the answers they are given are typed, they bind typed arguments and return typed results,
and they find operations equivalent only if their results have the same types (`OpModel.Typed`).

* `WellTyped` is the invariant of all states: memo, bindings, slots and everything the log records.
* `typeTheory` is its theory.  That a copy has the payload of its original is relied on, which
  `Engine.Handles` justifies.
* `wellTyped_history` says that all states of all histories are well typed, and `evaluate_run_eq`
  that an evaluation runs as any program that agrees with it on typed answers.
-/

set_option autoImplicit false

namespace MlirInterpreter

open Recorded

variable {Op Blk σ π : Type} [DecidableEq Op] [DecidableEq Blk]

/-! ## Typed models -/

/-- If it is known, the answer is a value of the type. -/
def Answer.OfType (T : Option Ty → π → Prop) (t : Option Ty) (a : Answer π) : Prop :=
  ∀ v, a.value? = some v → T t v.payload

theorem Answer.ofType_signal (T : Option Ty → π → Prop) (t : Option Ty) (st : Signal) :
    Answer.OfType T t (.signal st : Answer π) := fun v hv => by simp at hv

theorem Answer.ofType_unknown (T : Option Ty → π → Prop) (t : Option Ty) :
    Answer.OfType T t (.unknown : Answer π) := fun v hv => by simp at hv

/-- Answers for values of the types `ts`. -/
def AnswersOf (T : Option Ty → π → Prop) (ts : List Ty) (l : List (Answer π)) : Prop :=
  ∀ (i : ℕ) (a : Answer π), l[i]? = some a → a.OfType T ts[i]?

section Models

variable (P : Program Op Blk) (T : Option Ty → π → Prop)

/-- What a model makes sure of and may assume: it binds answers of the types of the arguments, and
is answered with values of the types of what it asks for. -/
def typing : Interface (ScopeOp Op Blk σ π) ScopeOp.Response where
  pre
    | .bind block args => AnswersOf T (P.argTypes block) args
    | _ => True
  post
    | .query value, (a : Answer π) => a.OfType T (P.valueType value)
    | .allocate payload, (v : EvalValue π) => v.payload = payload
    | _, _ => True

/-- A method that keeps to the types, with results `ok` accepts. -/
abbrev Typed {α : Type} (ok : α → Prop) (p : ScopeM Op Blk σ π α) : Prop :=
  p.Obeys (typing P T) ok

/-- A model whose methods keep to the types. -/
structure OpModel.Typed (op : Op) (model : OpModel Op Blk σ π) : Prop where
  isCacheable : MlirInterpreter.Typed P T (fun _ => True) model.isCacheable
  getHash : MlirInterpreter.Typed P T (fun _ => True) model.getHash
  isEquivalentTo : ∀ other, MlirInterpreter.Typed P T
    (fun r => r = .completed true → P.resultTypes op = P.resultTypes other)
    (model.isEquivalentTo other)
  evaluate : MlirInterpreter.Typed P T (AnswersOf T (P.resultTypes op)) model.evaluate

end Models

/-- All registered models keep to the types, and constants fold to values of theirs. -/
structure Setup.Typed (E : Setup Op Blk σ π) (T : Option Ty → π → Prop) : Prop where
  op : ∀ op model, E.models.op op = some model → model.Typed E.program T op
  constant : ∀ op attr model payload, E.models.op op = none →
    E.program.constantAttr op = some attr → E.models.attr attr = some model →
    model.toEvalValue = some payload → ∀ i < E.program.numResults op,
    T (E.program.valueType (.result op i)) payload

/-! ## The invariant -/

/-- The answers an event records are of the types of their values. -/
def Event.OfType (P : Program Op Blk) (T : Option Ty → π → Prop) : Event Op Blk π → Prop
  | .answered value answer => answer.OfType T (P.valueType value)
  | .memoized value answer => answer.OfType T (P.valueType value)
  | .queryEnded _ value answer => answer.OfType T (P.valueType value)
  | .evaluated op results => AnswersOf T (P.resultTypes op) results
  | .bound block args => AnswersOf T (P.argTypes block) args
  | _ => True

/-- Every known answer is of the type of its value. -/
structure WellTyped (E : Setup Op Blk σ π) (T : Option Ty → π → Prop) (s : State Op Blk σ π) :
    Prop where
  memo : ∀ v a, s.memo v = some a → a.OfType T (E.program.valueType v)
  bindings : ∀ b i a, s.engine.bindings.lookup (b, i) = some a →
    a.OfType T (E.program.valueType (.arg b i))
  slots : ∀ (e : ℕ) (entry : CacheEntry Op π) (i : ℕ) (a : Answer π),
    s.cache.arena[e]? = some entry → entry.results[i]? = some (some a) →
    a.OfType T (E.program.valueType (.result entry.op i))
  /-- A stored constant is what its attribute denotes. -/
  constants : ∀ attr type v, s.cache.constants.lookup (attr, type) = some (some v) →
    ∃ model, E.models.attr attr = some model ∧ model.toEvalValue = some v.payload
  log : ∀ e ∈ s.log, e.OfType E.program T

/-- What has to be shown of every state. -/
structure TypeGuar (E : Setup Op Blk σ π) (T : Option Ty → π → Prop) (s : State Op Blk σ π) :
    Prop where
  typed : WellTyped E T s
  /-- An evaluation starts inside a query. -/
  running : ∀ op, s.log.head? = some (.evaluating op) → s.engine.queryAllocator ≠ none

/-- What holds between the writes of a query. -/
structure TypeInv (E : Setup Op Blk σ π) (T : Option Ty → π → Prop) (s : State Op Blk σ π) :
    Prop where
  typed : WellTyped E T s
  running : s.engine.queryAllocator ≠ none

theorem TypeInv.guar {E : Setup Op Blk σ π} {T : Option Ty → π → Prop} {s : State Op Blk σ π}
    (h : TypeInv E T s) : TypeGuar E T s :=
  ⟨h.typed, fun _ _ => h.running⟩

/-- An entry for an operation whose results have the types of those of `op`. -/
def EntryOfType (P : Program Op Blk) (s : State Op Blk σ π) (op : Op) (e : ℕ) : Prop :=
  ∃ entry, s.cache.arena[e]? = some entry ∧ P.resultTypes op = P.resultTypes entry.op

omit [DecidableEq Op] [DecidableEq Blk] in
theorem EntryOfType.stable {P : Program Op Blk} {s t : State Op Blk σ π} {op : Op} {e : ℕ}
    (h : EntryOfType P s op e) (hc : s.cache.Extends t.cache) : EntryOfType P t op e := by
  obtain ⟨entry, he, ht⟩ := h
  obtain ⟨entry', he', hx⟩ := hc.arena e entry he
  exact ⟨entry', he', ht.trans (by rw [hx.op])⟩

/-- The theory of types. -/
def typeTheory (E : Setup Op Blk σ π) (T : Option Ty → π → Prop) : Theory Op Blk σ π where
  contract := ⟨HandleGuar, TypeGuar E T, fun _ => True⟩
  Inv := TypeInv E T
  Rel s s' := s'.engine.active = s.engine.active
  Own _ s s' := s'.engine.active = s.engine.active
  Pre _ _ := True
  Ans _ v a := a.OfType T (E.program.valueType v)
  Within _ _ := True
  Uncached _ _ := True
  Key _ _ _ := True
  Missed _ _ _ _ := True
  Compared _ op other r :=
    r = .completed true → E.program.resultTypes op = E.program.resultTypes other
  Found s op _ _ e := EntryOfType E.program s op e
  Kept := EntryOfType E.program
  Ready s op
    | some ⟨_, some e, _⟩ => EntryOfType E.program s op e
    | _ => True
  Results _ op l := AnswersOf T (E.program.resultTypes op) l
  Out _ op i a := a.OfType T (E.program.valueType (.result op i))

/-! ## Writes -/

section Writes

variable {E : Setup Op Blk σ π} {T : Option Ty → π → Prop} {s t : State Op Blk σ π}

/-- A write that leaves the answers in the cache alone. -/
theorem WellTyped.write {e : Event Op Blk π} (h : WellTyped E T s)
    (ha : t.cache.arena = s.cache.arena) (hc : t.cache.constants = s.cache.constants)
    (hl : t.log = e :: s.log) (he : e.OfType E.program T)
    (hm : ∀ v a, t.memo v = some a → a.OfType T (E.program.valueType v))
    (hb : ∀ b i a, t.engine.bindings.lookup (b, i) = some a →
      a.OfType T (E.program.valueType (.arg b i))) : WellTyped E T t where
  memo := hm
  bindings := hb
  slots := ha ▸ h.slots
  constants := hc ▸ h.constants
  log := by
    rw [hl]
    exact List.forall_mem_cons.mpr ⟨he, h.log⟩

/-- What a slot of an entry holds is an answer for the operations the entry is for. -/
theorem WellTyped.slot_of_entry (h : WellTyped E T s) {op : Op} {e : ℕ}
    (he : EntryOfType E.program s op e) {entry : CacheEntry Op π} {i : ℕ} {a : Answer π}
    (hentry : s.cache.arena[e]? = some entry) (hi : entry.results[i]? = some (some a)) :
    a.OfType T (E.program.valueType (.result op i)) := by
  obtain ⟨entry', he', htypes⟩ := he
  obtain rfl := Option.some.inj (he'.symm.trans hentry)
  change Answer.OfType T (E.program.resultTypes op)[i]? a
  exact htypes ▸ h.slots e entry' i a hentry hi

theorem typeTheory_allows {e : Event Op Blk π} (hs : TypeInv E T s) (hc : t.cache = s.cache)
    (hl : t.log = e :: s.log) (he : e.OfType E.program T)
    (hm : ∀ v a, t.memo v = some a → a.OfType T (E.program.valueType v))
    (hb : ∀ b i a, t.engine.bindings.lookup (b, i) = some a →
      a.OfType T (E.program.valueType (.arg b i)))
    (hq : t.engine.queryAllocator = s.engine.queryAllocator)
    (ha : t.engine.active = s.engine.active) : (typeTheory E T).Allows s t := by
  intro _
  have hinv : TypeInv E T t :=
    ⟨hs.typed.write (congrArg _ hc) (congrArg _ hc) hl he hm hb, hq ▸ hs.running⟩
  exact ⟨hinv.guar, hinv, ha⟩

/-- An event alone. -/
theorem typeTheory_note {e : Event Op Blk π} (hs : TypeInv E T s) (he : e.OfType E.program T) :
    (typeTheory E T).Allows s (s.note e) :=
  typeTheory_allows hs rfl rfl he hs.typed.memo hs.typed.bindings rfl rfl

/-- A typed answer may be memoized. -/
theorem typeTheory_memoize {v : Value Op Blk} {a : Answer π} (hs : TypeInv E T s)
    (ha : a.OfType T (E.program.valueType v)) :
    (typeTheory E T).Allows s ((s.memoize E.program v a).note (.memoized v a)) := by
  refine typeTheory_allows hs rfl rfl ha (fun u b hu => ?_) hs.typed.bindings rfl rfl
  simp only [State.memo, State.note, State.memoize, DenseMap.lookup_insert'] at hu
  split at hu
  · next huv =>
    obtain rfl := Option.some.inj hu
    exact huv ▸ ha
  · exact hs.typed.memo u b hu

/-- A slot is filled with a copy of a value of its type. -/
theorem typeTheory_fillSlot {op : Op} {e i : ℕ} {v : EvalValue π} (hs : TypeInv E T s)
    (he : EntryOfType E.program s op e) (hv : T (E.program.resultTypes op)[i]? v.payload) :
    let r := retain E.mem .cache s.heap s.cache.copies v
    (typeTheory E T).Allows s ((s.fillSlot e i r).note (.filled e i v r.value)) := by
  intro r hr
  have hpay : r.value.payload = v.payload := (hr.filled e i v r.value rfl).2.2
  have htyped : WellTyped E T ((s.fillSlot e i r).note (.filled e i v r.value)) := by
    refine ⟨hs.typed.memo, hs.typed.bindings, fun e' entry' j a he' hj => ?_, hs.typed.constants,
      List.forall_mem_cons.mpr ⟨trivial, hs.typed.log⟩⟩
    obtain ⟨entry, hentry, hop, -, hslot, -⟩ := State.fillSlot_arena he'
    rcases hslot j a hj with hj | ⟨rfl, rfl, rfl⟩
    · rw [hop]
      exact hs.typed.slots e' entry j a hentry hj
    · intro w hw
      obtain ⟨entry₀, h₀, htypes⟩ := he
      obtain rfl := Option.some.inj (h₀.symm.trans hentry)
      obtain rfl : r.value = w := by simpa using hw
      rw [hpay, hop]
      change T (E.program.resultTypes entry₀.op)[j]? v.payload
      exact htypes ▸ hv
  have hinv : TypeInv E T ((s.fillSlot e i r).note (.filled e i v r.value)) := ⟨htyped, hs.running⟩
  exact ⟨hinv.guar, hinv, rfl⟩

/-- `fill` keeps the types of an entry. -/
theorem typeTheory_fill {op : Op} {e : ℕ} {l : List (Answer π)} (hs : TypeInv E T s)
    (he : EntryOfType E.program s op e) (hl : AnswersOf T (E.program.resultTypes op) l) :
    wp (typeTheory E T).contract (fill E e l) s fun _ t =>
      TypeInv E T t ∧ (typeTheory E T).Rel s t := by
  let J : ℕ → State Op Blk σ π → Prop := fun _ t =>
    (TypeInv E T t ∧ (typeTheory E T).Rel s t) ∧ EntryOfType E.program t op e
  refine wp_bind (wp_mono (wp_fillSlots (J := J) (fun j a t hj ht => ?_) ⟨⟨hs, rfl⟩, he⟩) ?_)
  · refine wp_fillSlot (fun _ => trivial) (fun _ => ht)
      (fun _ _ _ _ => ht) fun ent v ha hent hslot => ?_
    have hv : T (E.program.resultTypes op)[0 + j]? v.payload := by
      rw [Nat.zero_add]
      exact hl j a hj v (by simp [ha])
    intro r u hr
    obtain ⟨hg, hi, hrel⟩ := typeTheory_fillSlot ht.1.1 ht.2 hv hr
    exact ⟨hg, ⟨hi, hrel.trans ht.1.2⟩, ht.2.stable (Continues.fillSlot E.mem v hent hslot).cache⟩
  · rintro _ t ⟨⟨ht, hrel⟩, -⟩
    refine wp_record fun hr => ?_
    obtain ⟨hg, hi, hrel'⟩ := typeTheory_note (e := .stored e) ht trivial hr
    exact ⟨hg, hi, hrel'.trans hrel⟩

/-- A new entry holds nothing. -/
theorem typeTheory_append (op : Op) (key : HashCode) {slots : ℕ} (hs : TypeInv E T s) :
    (typeTheory E T).Allows s
      ((s.append op key slots).note (.appended op key s.cache.arena.length)) := by
  intro _
  have htyped : WellTyped E T
      ((s.append op key slots).note (.appended op key s.cache.arena.length)) := by
    refine ⟨hs.typed.memo, hs.typed.bindings, fun e entry i a he hi => ?_, hs.typed.constants,
      List.forall_mem_cons.mpr ⟨trivial, hs.typed.log⟩⟩
    rcases State.append_arena he with he | ⟨-, rfl⟩
    · exact hs.typed.slots e entry i a he hi
    · simp [List.getElem?_replicate] at hi
  have hinv : TypeInv E T
      ((s.append op key slots).note (.appended op key s.cache.arena.length)) := ⟨htyped, hs.running⟩
  exact ⟨hinv.guar, hinv, rfl⟩

/-- A new storage does not change what is known. -/
theorem typeTheory_addStorage (v : EvalValue π) (hs : TypeInv E T s) :
    (typeTheory E T).Allows s ((s.addStorage v).note (.allocated v)) :=
  typeTheory_allows hs rfl rfl trivial hs.typed.memo hs.typed.bindings rfl rfl

/-- A constant is answered with what its attribute denotes. -/
theorem typeTheory_constant (hE : E.Typed T) {op : Op} (hm : E.models.op op = none) {i : ℕ}
    (hi : i < E.program.numResults op) (hs : TypeInv E T s) :
    wp (typeTheory E T).contract (evaluateConstant E op) s fun r t =>
      TypeInv E T t ∧ (typeTheory E T).Rel s t ∧
        Answer.OfType T (E.program.valueType (.result op i)) (.completed r.1) := by
  have hrefl : (typeTheory E T).Rel s s := rfl
  refine wp_evaluateConstant (Q := fun value t => TypeInv E T t ∧ (typeTheory E T).Rel s t ∧
    Answer.OfType T (E.program.valueType (.result op i)) (.completed value)) (fun _ => ?_) ?_ ?_ ?_
  · exact ⟨hs, hrefl, fun v hv => by simp at hv⟩
  · rintro attr - value hattr - - hlook
    refine ⟨hs, hrefl, ?_⟩
    rintro v rfl
    obtain ⟨model, hmodel, hv⟩ := hs.typed.constants attr _ v hlook
    exact hE.constant op attr model _ hm hattr hmodel hv i hi
  · intro attr model hattr hmodel _ type value t _
    have hpayload : ∀ v, value = some v → model.toEvalValue = some v.payload := by
      intro v hv
      obtain ⟨payload, hp, rfl⟩ := Option.map_eq_some_iff.mp hv
      exact hp
    have htyped : WellTyped E T t := by
      refine ⟨hs.typed.memo, hs.typed.bindings, hs.typed.slots, fun attr' type' v hk => ?_,
        List.forall_mem_cons.mpr ⟨trivial, hs.typed.log⟩⟩
      simp only [t, State.note, State.storeConstant, DenseMap.lookup_tryEmplace] at hk
      split at hk
      · next hkey =>
        obtain ⟨rfl, rfl⟩ := Prod.mk.inj hkey.1
        exact ⟨model, hmodel, hpayload v (Option.some.inj hk)⟩
      · exact hs.typed.constants attr' type' v hk
    have hinv : TypeInv E T t := ⟨htyped, hs.running⟩
    refine ⟨hinv.guar, hinv, rfl, fun v hv => ?_⟩
    exact hE.constant op attr model _ hm hattr hmodel (hpayload v hv) i hi
  · intro attr model payload hattr hmodel hv v t hr
    obtain ⟨hg, hinv, hrel⟩ := typeTheory_addStorage v hs hr
    refine ⟨hg, hinv, hrel, ?_⟩
    rintro _ ⟨⟩
    exact hE.constant op attr model payload hm hattr hmodel hv i hi

end Writes

/-! ## Methods -/

section Methods

variable {E : Setup Op Blk σ π} {T : Option Ty → π → Prop}
  {ask : Value Op Blk → EngineM Op Blk σ π (Answer π)} {active : Finset Op}

/-- **A scope keeps its promises**: to a model that binds typed arguments it answers as `typing`
says. -/
theorem typeTheory_handler (ha : (typeTheory E T).Asks ask active) (i : ScopeOp Op Blk σ π)
    (s : State Op Blk σ π) (hi : (typing E.program T).pre i)
    (hs : TypeInv E T s ∧ s.engine.active = active) :
    wp (typeTheory E T).contract (handler E ask i) s fun r t =>
      (TypeInv E T t ∧ t.engine.active = active) ∧ (typing E.program T).post i r := by
  obtain ⟨hs, hact⟩ := hs
  have write : ∀ (e : Event Op Blk π) (f : State Op Blk σ π → State Op Blk σ π),
      (typeTheory E T).Allows s ((f s).note e) → wp (typeTheory E T).contract (record e f) s
        fun _ t => (TypeInv E T t ∧ t.engine.active = active) ∧ True := by
    refine fun e f hallow => wp_record fun hr => ?_
    obtain ⟨hg, hi, hrel⟩ := hallow hr
    exact ⟨hg, ⟨hi, hrel.trans hact⟩, trivial⟩
  have hmemo := hs.typed.memo
  have hbindings := hs.typed.bindings
  cases i with
  | query v =>
    refine wp_bind (wp_mono (ha.spec v s hs trivial hact) fun a t ⟨ht, hrel, hans⟩ => ?_)
    refine wp_bind (wp_record fun hr => ?_)
    obtain ⟨hg, hu, hrel'⟩ := typeTheory_note (e := .answered v a) ht hans hr
    exact ⟨hg, wp_pure ⟨⟨hu, (hrel'.trans hrel).trans hact⟩, hans⟩⟩
  | declareCost =>
    refine wp_declareCost (fun _ => ⟨⟨hs, hact⟩, trivial⟩) fun _ hr => ?_
    obtain ⟨hg, ht, hrel⟩ :=
      typeTheory_allows (e := .charged) (t := s.charge.note .charged) hs rfl rfl
      trivial hmemo hbindings rfl rfl hr
    exact ⟨hg, ⟨ht, hrel.trans hact⟩, trivial⟩
  | freezeCache =>
    exact write .frozen State.freeze (typeTheory_allows (e := .frozen) hs rfl rfl trivial hmemo
      hbindings rfl rfl)
  | thawCache =>
    refine wp_bind (wp_read (wp_bind (wp_require (fun _ => trivial) fun _ => ?_)))
    exact write .thawed State.thaw (typeTheory_allows (e := .thawed) hs rfl rfl trivial hmemo
      hbindings rfl rfl)
  | bind block args =>
    refine wp_bind (wp_read (wp_bind (wp_require (fun _ => trivial) fun _ => ?_)))
    refine wp_bind (wp_require (fun _ => trivial) fun _ => write (.bound block args) _ ?_)
    refine typeTheory_allows (e := .bound block args) hs rfl rfl hi hmemo
      (fun b j a hk => ?_) rfl rfl
    simp only [State.note, State.bind, DenseMap.lookup_tryEmplaceAll, Option.or_eq_some_iff] at hk
    rcases hk with hk | ⟨-, hk⟩
    · exact hbindings b j a hk
    · -- The answer bound to an argument is the one at its position.
      obtain ⟨⟨key, x⟩, hq, rfl⟩ := Option.map_eq_some_iff.mp hk
      have hkey : key = (b, j) := by simpa using List.find?_some hq
      obtain ⟨n, hn⟩ := List.mem_iff_getElem?.mp (List.mem_of_find?_eq_some hq)
      obtain ⟨hkn, hxn⟩ := List.getElem?_zip_eq_some.mp hn
      obtain ⟨hrange, rfl⟩ : (List.range (E.program.numArgs block))[n]? = some j ∧ block = b := by
        simpa [Program.argKeys, hkey] using hkn
      obtain rfl : n = j := by simpa using (List.getElem?_eq_some_iff.mp hrange).2
      exact hi n x hxn
  | unbind block =>
    refine wp_bind (wp_read ?_)
    cases s.engine.frames.getLast? with
    | none => exact wp_stop trivial
    | some frame =>
      refine wp_bind (wp_require (fun _ => trivial) fun _ => write (.unbound block) _ ?_)
      refine typeTheory_allows (e := .unbound block) hs rfl rfl trivial (fun u a hu => ?_)
        (fun b j a hk => ?_) rfl rfl
      · simp only [State.memo, State.note, State.unbind, DenseMap.lookup_eraseAll] at hu
        split at hu
        · simp at hu
        · exact hmemo u a hu
      · simp only [State.note, State.unbind, DenseMap.lookup_eraseAll] at hk
        split at hk
        · simp at hk
        · exact hbindings b j a hk
  | allocate payload =>
    refine wp_bind (wp_read (wp_bind (wp_mono (write _ _ (typeTheory_addStorage _ hs)) ?_)))
    exact fun _ t ht => wp_pure ⟨ht.1, rfl⟩
  | getWorld => exact wp_bind (wp_read (wp_pure ⟨⟨hs, hact⟩, trivial⟩))
  | setWorld w =>
    exact write .worldChanged (State.setWorld w) (typeTheory_allows (e := .worldChanged) hs rfl rfl
      trivial hmemo hbindings rfl rfl)

/-- A method that keeps to the types is run as the theory claims. -/
theorem typeTheory_runScope {α : Type} {ok : α → Prop} {p : ScopeM Op Blk σ π α}
    {s : State Op Blk σ π} (hp : Typed E.program T ok p)
    (ha : (typeTheory E T).Asks ask s.engine.active) (hs : TypeInv E T s) :
    wp (typeTheory E T).contract (runScope E ask p) s fun a t =>
      TypeInv E T t ∧ (typeTheory E T).Rel s t ∧ ok a := by
  refine wp_mono
    (Prog.Obeys.wp_run (J := fun t => TypeInv E T t ∧ t.engine.active = s.engine.active)
    (K := fun _ _ => True) (fun _ => trivial) (fun _ _ _ _ _ => trivial) (fun i t hi ht => ?_) hp
    ⟨hs, rfl⟩) fun a t ht => ⟨ht.1.1, ht.1.2, ht.2.2⟩
  exact wp_mono (typeTheory_handler ha i t hi ht) fun r u hu => ⟨hu.1, trivial, hu.2⟩

end Methods

/-- **The theory of types holds for typed models.** -/
theorem typeTheory_sound [Fintype Op] {E : Setup Op Blk σ π} {T : Option Ty → π → Prop}
    (hE : E.Typed T) : (typeTheory E T).Sound E where
  rel_refl s := rfl
  rel_trans a b c h h' := Eq.trans h' h
  own_of_rel _ _ _ h := h
  own_trans _ a b c h h' := Eq.trans h' h
  own_active _ _ _ h := h
  ans_memoized _ _ _ _ h := h
  within_stable _ _ _ _ _ := trivial
  unevaluated_stable _ _ _ _ _ _ := trivial
  running_stable _ _ _ _ _ _ := trivial
  missed_stable _ _ _ _ _ _ _ _ := trivial
  found_stable _ _ _ _ _ _ hm _ h := h.stable hm.continues.cache
  kept_stable _ _ _ _ hm _ h := h.stable hm.continues.cache
  results_stable _ _ _ _ _ _ h := h
  unanswered _ _ _ _ _ := trivial
  memo_hit s v a hs _ hm := hs.typed.memo v a hm
  memo_add s s' v a _ hm ha _ _ := typeTheory_memoize hm.inv ha
  arg s b i hs _ := by
    cases hb : s.engine.bindings.lookup (b, i) with
    | none => exact Answer.ofType_unknown _ _
    | some a => exact hs.typed.bindings b i a hb
  invalid _ _ _ _ _ _ := trivial
  constant s op i hm hs _ hi := typeTheory_constant hE hm hi hs
  cycle _ _ _ _ _ _ _ _ _ := Answer.ofType_signal _ _ _
  enter s op i model _ hs _ _ _ _ _ := by
    have htyped : WellTyped E T ((s.enter op).note (.entered op)) :=
      hs.typed.write rfl rfl rfl trivial hs.typed.memo hs.typed.bindings
    have hinv : TypeInv E T ((s.enter op).note (.entered op)) := ⟨htyped, hs.running⟩
    exact ⟨hinv.guar, hinv, trivial⟩
  leave s s' op i a hs _ _ hop hd hout _ := by
    have htyped : WellTyped E T ((s'.leave op).note (.left op)) :=
      hd.inv.typed.write rfl rfl rfl trivial hd.inv.typed.memo hd.inv.typed.bindings
    have hinv : TypeInv E T ((s'.leave op).note (.left op)) := ⟨htyped, hd.inv.running⟩
    have hact : s'.engine.active = Insert.insert op s.engine.active := hd.own
    exact ⟨hinv.guar, hinv, by simp [typeTheory, State.note, State.leave, hact, hop], hout⟩
  cacheable s op model ask hm ha hs _ _ :=
    wp_mono (typeTheory_runScope (hE.op op model hm).isCacheable ha hs) fun r t ht =>
      ⟨ht.1, ht.2.1, fun _ => trivial, fun _ => trivial, fun _ _ => trivial,
        fun _ _ _ _ => Answer.ofType_signal _ _ _⟩
  hash s op model ask hm ha hs _ _ _ :=
    wp_mono (typeTheory_runScope (hE.op op model hm).getHash ha hs) fun r t ht =>
      ⟨ht.1, ht.2.1, fun _ _ => trivial, fun _ _ _ _ => Answer.ofType_signal _ _ _⟩
  unevaluated_search _ _ _ _ _ := trivial
  searching s op key hs _ _ := .of_allows (typeTheory_note hs trivial) id trivial trivial
  candidate_range _ _ _ _ _ _ _ := trivial
  scan_length _ _ _ _ _ _ _ := trivial
  own s op key n e entry hs _ _ _ he hop :=
    .of_allows (typeTheory_note hs trivial) id trivial ⟨entry, he, by rw [hop]⟩
  shape s op key n e entry hs _ _ _ _ _ _ :=
    .of_allows (typeTheory_note hs trivial) id trivial trivial
  equivalent s op key n e entry model ask hm ha hs _ _ _ _ _ _ :=
    typeTheory_runScope ((hE.op op model hm).isEquivalentTo entry.op) ha hs
  skipped s op key n e entry st hs _ _ _ _ _ _ _ :=
    .of_allows (typeTheory_note hs trivial) id trivial trivial
  different s op key n e entry hs _ _ _ _ _ _ _ :=
    .of_allows (typeTheory_note hs trivial) id trivial trivial
  matching s op key n e entry hs _ _ _ he _ _ hcompared :=
    .of_allows (typeTheory_note hs trivial) id trivial ⟨entry, he, hcompared rfl⟩
  exhausted _ _ _ _ _ _ _ _ _ _ := Answer.ofType_signal _ _ _
  charge s op i cached hs _ _ _ hlooked _ hr := by
    obtain ⟨hg, hi, hrel⟩ :=
      typeTheory_allows (e := .charged) (t := s.charge.note .charged) hs rfl rfl
      trivial hs.typed.memo hs.typed.bindings rfl rfl hr
    refine ⟨hg, fun hr' => ?_⟩
    obtain ⟨hg', hi', hrel'⟩ := typeTheory_note (e := .evaluating op) hi trivial hr'
    refine ⟨hg', hi', Eq.trans hrel' hrel, trivial, ?_, trivial⟩
    rcases cached with _ | ⟨key, _ | e, n⟩
    · trivial
    · trivial
    · exact hlooked.1
  evaluates s op model ask cached hm ha hs _ hready := by
    refine wp_mono (wp_stepsAt Continues.refl (fun _ _ _ => Continues.trans)
      (continuing_runScope ha.continuing _ s)
      (typeTheory_runScope (hE.op op model hm).evaluate ha hs)) fun l t ht => ?_
    obtain ⟨⟨hi, hrel, hl⟩, hcont⟩ := ht
    refine ⟨hi, hrel, hl, ?_⟩
    rcases cached with _ | ⟨key, _ | e, n⟩
    · trivial
    · trivial
    · exact EntryOfType.stable hready hcont.cache
  count _ _ _ _ _ _ _ := trivial
  evaluated s op l cached hs _ _ hready hl _ :=
    .of_allows (typeTheory_note hs hl) id trivial ⟨hready, trivial⟩
  evaluated_stable _ _ _ _ _ _ _ := trivial
  ready_stable s s' op cached hm _ h := by
    rcases cached with _ | ⟨key, _ | e, n⟩
    · trivial
    · trivial
    · exact EntryOfType.stable h hm.continues.cache
  ready s op cached _ _ _ _ h := by
    rcases cached with ⟨key, _ | e, n⟩
    · trivial
    · exact h
  reuse s op key n e l hs _ _ _ := typeTheory_note hs trivial
  fill s₀ s op e l hs _ he hl _ _ _ _ := typeTheory_fill hs he hl
  append s₀ s op key n l hs _ _ _ hl _ _ _ _ := by
    refine wp_bind (wp_read (wp_bind (wp_record fun hr => ?_)))
    obtain ⟨hg, hi, hrel⟩ := typeTheory_append op key hs hr
    have hentry : EntryOfType E.program ((s.append op key l.length).note
        (.appended op key s.cache.arena.length)) op s.cache.arena.length :=
      ⟨⟨op, List.replicate l.length none⟩, by simp [State.note, State.append], rfl⟩
    refine ⟨hg, wp_bind (wp_mono (wp_stepsAt Continues.refl (fun _ _ _ => Continues.trans)
      (continuing_fill _ l _) (typeTheory_fill hi hentry hl)) fun _ u hu => wp_pure ?_)⟩
    exact ⟨hu.1.1, Eq.trans hu.1.2 hrel, trivial, hentry.stable hu.2.cache⟩
  kept _ _ _ _ _ _ _ h := h
  kept_range _ _ _ _ _ _ _ _ := trivial
  kept_slot s op e entry i a hs _ he hentry hi := hs.typed.slot_of_entry he hentry hi
  unstored _ _ _ _ _ _ _ _ _ _ := trivial
  unstored_stable _ _ _ _ _ _ _ _ := trivial
  result s op l i a _ _ hl hi _ := hl i a hi
  memo_own s op i a hs _ ha _ _ _ := typeTheory_memoize hs ha
  hit s op key n e entry i a hs _ _ he hentry hi := hs.typed.slot_of_entry he hentry hi
  finish _ _ _ _ _ _ _ _ _ _ h := h

/-! ## Every query, every history -/

section Histories

variable [Fintype Op] {E : Setup Op Blk σ π} {T : Option Ty → π → Prop}

/-- A query keeps the types, and its answer is of the type of the value asked for. -/
theorem typeTheory_query (hE : E.Typed T) {s : State Op Blk σ π} (hs : WellTyped E T s)
    (engine budget : ℕ) (value : Value Op Blk) :
    wp (typeTheory E T).contract (query E engine budget value) s fun r t =>
      WellTyped E T t ∧ r.1.OfType T (E.program.valueType value) := by
  refine wp_query (fun _ => trivial) fun _ => ?_
  have htyped : WellTyped E T
      ((s.beginQuery engine budget).note (.queryStarted engine budget value)) :=
    hs.write rfl rfl rfl trivial hs.memo hs.bindings
  have hinv : TypeInv E T ((s.beginQuery engine budget).note (.queryStarted engine budget value)) :=
    ⟨htyped, by simp [State.note, State.beginQuery]⟩
  refine ⟨hinv.guar, ?_⟩
  refine wp_mono ((typeTheory_sound hE).wp_compute (Nat.lt_succ_self _) hinv trivial trivial
    (by omega)) fun r t ht => ?_
  obtain ⟨ht, -, hans⟩ := ht
  let C : Contract (State Op Blk σ π) Abort := (typeTheory E T).contract
  -- The end of the query, in the state `u` with the answer `a`.
  have finish : ∀ (u : State Op Blk σ π) (a : Answer π), WellTyped E T u →
      a.OfType T (E.program.valueType value) →
      (u.engine.scopesEnded = false → C.abort .leakedScope) ∧
        (u.engine.scopesEnded = true → C.rely (u.endQuery.note (.queryEnded engine value a)) →
          C.guar (u.endQuery.note (.queryEnded engine value a)) ∧
            WellTyped E T (u.endQuery.note (.queryEnded engine value a)) ∧
              a.OfType T (E.program.valueType value)) := by
    refine fun u a hu ha => ⟨fun _ => trivial, fun _ _ => ?_⟩
    have hend : WellTyped E T (u.endQuery.note (.queryEnded engine value a)) :=
      hu.write rfl rfl rfl ha (by simp [State.memo, State.note, State.endQuery]) hu.bindings
    exact ⟨⟨hend, by simp [State.note]⟩, hend, ha⟩
  refine wp_handOut (fun _ => finish t r.1 ht.typed hans) fun v hv hr => ?_
  have hpay := (hr.handedOut v _ rfl).2.2
  have hout : ∀ r, WellTyped E T ((t.retainAnswer engine r).note (.handedOut v r.value)) := fun _ =>
    ht.typed.write rfl rfl rfl trivial ht.typed.memo ht.typed.bindings
  refine ⟨⟨hout _, by simp [State.note]⟩, finish _ _ (hout _) fun w hw => ?_⟩
  obtain rfl := Option.some.inj hw
  rw [hpay]
  exact hans v (by simp [hv])

/-- **All states of all histories are well typed**, and so is the answer of every query. -/
theorem wellTyped_history (hE : E.Typed T) (hC : E.models.Confined)
    {past : List (State Op Blk σ π)} {s : State Op Blk σ π} (h : History E past s)
    (engine budget : ℕ) (value : Value Op Blk) :
    (∀ t ∈ past ++ (query E engine budget value s).visited, TypeGuar E T t) ∧
      ∀ r s', (query E engine budget value s).outcome = .ok (r, s') →
        r.1.OfType T (E.program.valueType value) := by
  have hrely := (handleTheory_history hC h engine budget value).2
  have hpast : WellTyped E T s ∧ ∀ t ∈ past, TypeGuar E T t := by
    refine h.invariant_of_rely (fun w => ?_)
      (fun s engine budget value _ hs hr => ?_) (fun s hs => ?_)
      fun t ht => hrely t (List.mem_append_left _ ht)
    · have hinit : WellTyped E T (State.init w) := by
        constructor <;> simp [State.init, State.memo, Engine.idle, EvalCache.empty]
      exact ⟨hinit, hinit, by simp [State.init]⟩
    · obtain ⟨hg, hq, -⟩ := typeTheory_query hE hs engine budget value hr
      exact ⟨hg, fun r s' hr' => (hq r s' hr').1⟩
    · have hclear : WellTyped E T (s.clear.note .cleared) := by
        refine ⟨hs.memo, hs.bindings, ?_, ?_, List.forall_mem_cons.mpr ⟨trivial, hs.log⟩⟩ <;>
          simp [State.note, State.clear, EvalCache.empty]
      exact ⟨hclear, hclear, by simp [State.note]⟩
  obtain ⟨hg, hq, -⟩ := typeTheory_query hE hpast.1 engine budget value
    fun t ht => hrely t (List.mem_append_right _ ht)
  refine ⟨fun t ht => ?_, fun r s' hr => (hq r s' hr).2⟩
  rcases List.mem_append.mp ht with ht | ht
  · exact hpast.2 t ht
  · exact hg t ht

/-- **An evaluation runs as any program that agrees with it on typed answers**, whatever bound on
the nesting of queries is left, if it suffices. -/
theorem evaluate_run_eq (hE : E.Typed T) (hC : E.models.Confined) {op : Op}
    {model : OpModel Op Blk σ π} (hm : E.models.op op = some model) {α : Type}
    {f : List (Answer π) → α} {p : ScopeM Op Blk σ π α}
    {rel : α → List (Answer π) → Prop} (hrel : ∀ a l, rel a l → a = f l)
    (hp : Prog.Agree (typing E.program T) rel p model.evaluate) {t : State Op Blk σ π}
    (ht : TypeGuar E T t) (hh : HandleGuar t) (hlog : t.log.head? = some (.evaluating op))
    {depth : ℕ} (hd : Fintype.card Op < depth + t.engine.active.card) :
    let ask := evaluate E (compute E (Fintype.card Op + 1) depth)
    runScope E ask p t = (f <$> runScope E ask model.evaluate) t := by
  intro ask
  have hrunning := ht.running op hlog
  have hvisited : ∀ u ∈ (runScope E ask model.evaluate t).visited, HandleGuar u :=
    (handleTheory_runScope ((handleTheory_sound hC).asks (Nat.lt_succ_self _) hd) _ []
      (hC op model hm).evaluate t ⟨hh.store, hh.copies hrunning⟩ rfl (by simp) fun _ _ => trivial).1
  have hasks : (typeTheory E T).Asks ask t.engine.active :=
    (typeTheory_sound hE).asks (Nat.lt_succ_self _) hd
  exact hp.run_eq (J := fun u => TypeInv E T u ∧ u.engine.active = t.engine.active)
    (fun i u hi hu => typeTheory_handler hasks i u hi hu) hrel ⟨⟨ht.typed, hrunning⟩, rfl⟩ hvisited

end Histories

end MlirInterpreter
