import MlirInterpreter.Engine.Query

/-!
# Stored answers

`Engine::compute` evaluates an operation although its lookup has found an entry if the entry has no
answer for the result that is asked for.  What it memoizes and returns then should be what the slots
of the entry hold, because values may compare by identity.

* `State.stored` is what the entry of the running call for an operation holds, by the events of the
  log.
* An answer is passed over (`State.PassesOver`) if the evaluation of an operation with an entry ends
  while the cache is frozen, or without a known answer: the code then forgets the entry.
* Otherwise the answers are those in the slots, in every run of every model (`answers_stored`).
-/

set_option autoImplicit false

namespace MlirInterpreter

open Recorded

variable {Op Blk σ π : Type} [DecidableEq Op]

/-! ## The entry of a call -/

/-- An entry, by its place in a bucket or in the arena. -/
inductive EntryRef
  | candidate (key : HashCode) (position : ℕ)
  | appended (entry : ℕ)

/-- The entry the last call for `op` uses: the candidate that matched, or the entry that was
appended. -/
def entryRef (op : Op) : List (Event Op Blk π) → Option EntryRef
  | [] => none
  | .entered o :: log => if o = op then none else entryRef op log
  | .examined o key n verdict :: log =>
    if o = op ∧ verdict.isMatch = true then some (.candidate key n) else entryRef op log
  | .appended o _ e :: log => if o = op then some (.appended e) else entryRef op log
  | _ :: log => entryRef op log

/-- The operation whose entry an event may be about. -/
def Event.user : Event Op Blk π → Option Op
  | .entered op => some op
  | .examined op _ _ _ => some op
  | .appended op _ _ => some op
  | _ => none

theorem entryRef_cons {op : Op} {e : Event Op Blk π} (he : e.user ≠ some op)
    (log : List (Event Op Blk π)) : entryRef op (e :: log) = entryRef op log := by
  cases e <;> simp_all [entryRef, Event.user]

namespace State

variable (s : State Op Blk σ π)

/-- The entry of the last call for `op`. -/
def callEntry (op : Op) : Option ℕ :=
  (entryRef op s.log).bind fun
    | .candidate key n => (s.bucket key)[n]?
    | .appended e => some e

/-- What the entry of the last call for `op` holds for the result `i`. -/
def stored (op : Op) (i : ℕ) : Option (Answer π) :=
  ((s.callEntry op).bind fun e => s.cache.arena[e]?).bind fun entry => (entry.results[i]?).join

/-- The answer `a` for the result `i` of `op` is the stored one, if there is one. -/
def Canonical (op : Op) (i : ℕ) (a : Answer π) : Prop := ∀ b, s.stored op i = some b → a = b

/-- `evaluate` has just returned the answer `a` for the result `i` of `op`, and an answer stored for
`i` is passed over, because the cache is frozen or no answer is known. -/
def PassesOver (op : Op) (i : ℕ) (a : Answer π) : Prop :=
  ∃ l, s.log.head? = some (.evaluated op l) ∧ l[i]? = some a ∧
    (s.engine.freezes ≠ 0 ∨ l.any Answer.isKnown = false) ∧ (s.stored op i).isSome = true

end State

section Stored

variable {s t : State Op Blk σ π} {op : Op} {e i : ℕ} {entry : CacheEntry Op π}

theorem State.stored_of_entry (he : s.callEntry op = some e) (ha : s.cache.arena[e]? = some entry) :
    s.stored op i = (entry.results[i]?).join := by
  rw [State.stored, he, Option.bind_some, ha, Option.bind_some]

theorem State.stored_of_none (he : s.callEntry op = none) : s.stored op i = none := by
  rw [State.stored, he]
  rfl

theorem State.callEntry_of_none (h : entryRef op s.log = none) : s.callEntry op = none := by
  rw [State.callEntry, h]
  rfl

/-- A write that leaves the cache alone and is not about the entry of `op`. -/
theorem State.stored_of_eq (hc : t.cache = s.cache) (hl : entryRef op t.log = entryRef op s.log) :
    t.stored op i = s.stored op i := by
  simp only [State.stored, State.callEntry, State.bucket, hc, hl]

theorem State.callEntry_of_candidate {key : HashCode} {n : ℕ}
    (h : entryRef op s.log = some (.candidate key n)) (hb : (s.bucket key)[n]? = some e) :
    s.callEntry op = some e := by
  rw [State.callEntry, h]
  exact hb

/-- A candidate that does not match is not used. -/
theorem entryRef_mismatch {key : HashCode} {n : ℕ} {verdict : Verdict}
    (h : entryRef op s.log = none) (hv : verdict.isMatch = false) :
    entryRef op (s.note (.examined op key n verdict)).log = none := by
  simpa [State.note, entryRef, hv] using h

theorem State.Canonical.of_none (h : entryRef op s.log = none) {a : Answer π} :
    s.Canonical op i a := by
  intro b hb
  simp [State.stored_of_none (State.callEntry_of_none h)] at hb

theorem State.Canonical.of_empty (hk : s.callEntry op = some e)
    (he : s.cache.arena[e]? = some entry) (hi : entry.results[i]? = some none) {a : Answer π} :
    s.Canonical op i a := by
  intro b hb
  simp [State.stored_of_entry hk he, hi] at hb

theorem State.Canonical.of_slot (hk : s.callEntry op = some e) (he : s.cache.arena[e]? = some entry)
    {a : Answer π} (hi : entry.results[i]? = some (some a)) : s.Canonical op i a := by
  intro b hb
  simpa [State.stored_of_entry hk he, hi] using hb

/-- The entry of a call stays the same while the cache grows. -/
theorem Continues.callEntry (h : Continues s t) (hl : entryRef op t.log = entryRef op s.log)
    (he : s.callEntry op = some e) : t.callEntry op = some e := by
  rw [State.callEntry, hl]
  rw [State.callEntry] at he
  cases href : entryRef op s.log with
  | none => simp [href] at he
  | some ref =>
    rw [href] at he
    cases ref with
    | candidate key n => exact h.cache.getElem? he
    | appended e' => exact he

end Stored

/-! ## The theory -/

variable [DecidableEq Blk]

/-- What the answers of a call and the slots of its entry have to do with each other, if nothing is
passed over but signals for results that `requested` does not hold of. -/
def storedTheory (E : Setup Op Blk σ π) (requested : Op → ℕ → Prop) : Theory Op Blk σ π where
  contract := {
    rely t := ∀ op i a, t.PassesOver op i a → a.isCompleted = false ∧ ¬ requested op i
    guar t := (∀ op i a, t.log.head? = some (.memoized (.result op i) a) → op ∈ t.engine.active →
        t.Canonical op i a) ∧
      ∀ op, t.log.head? = some (.entered op) → (∀ o ∈ t.engine.active, E.models.op o ≠ none) ∧
        op ∈ t.engine.active
    abort _ := True }
  Inv s := ∀ op ∈ s.engine.active, E.models.op op ≠ none
  Rel s s' := s'.engine.active = s.engine.active ∧
    ∀ op ∈ s.engine.active, entryRef op s'.log = entryRef op s.log
  Own op s s' := s'.engine.active = s.engine.active ∧
    ∀ o ∈ s.engine.active, o ≠ op → entryRef o s'.log = entryRef o s.log
  Pre _ _ := True
  Ans s v a := ∀ op i, v = .result op i → a.isCompleted = true → s.memo v = none →
    op ∉ s.engine.active
  Within s op := op ∈ s.engine.active
  Uncached s op := entryRef op s.log = none
  Key s op _ := entryRef op s.log = none
  Missed s op _ _ := entryRef op s.log = none
  Compared _ _ _ _ := True
  Found s op key n e := entryRef op s.log = some (.candidate key n) ∧ (s.bucket key)[n]? = some e
  Kept s op e := s.callEntry op = some e
  Ready s op
    | none => entryRef op s.log = none
    | some ⟨_, none, _⟩ => entryRef op s.log = none
    | some ⟨_, some e, _⟩ => s.callEntry op = some e
  Results _ _ _ := True
  Out s op i a := a.isCompleted = true ∨ requested op i → s.Canonical op i a
  Eligible s op := entryRef op s.log = none
  Unstored s op l := ∀ (i : ℕ) a, l[i]? = some a → a.isCompleted = true ∨ requested op i →
    s.Canonical op i a

section Writes

variable {E : Setup Op Blk σ π} {requested : Op → ℕ → Prop} {s t : State Op Blk σ π}

/-- Does an event memoize a value or enter an operation? -/
def Event.isCall : Event Op Blk π → Bool
  | .memoized .. => true
  | .entered _ => true
  | _ => false

/-- Nothing has to be shown of other events. -/
theorem storedTheory_guar {e : Event Op Blk π} (hl : t.log.head? = some e) (he : e.isCall = false) :
    (storedTheory E requested).contract.guar t := by
  refine ⟨fun op i a hlog => ?_, fun op hlog => ?_⟩
  all_goals
    obtain rfl := Option.some.inj (hl.symm.trans hlog)
    cases he

/-- A write that is not about the entry of a call. -/
theorem storedTheory_allows {e : Event Op Blk π} (hs : (storedTheory E requested).Inv s)
    (hl : t.log = e :: s.log) (hu : e.user = none) (he : e.isCall = false)
    (ha : t.engine.active = s.engine.active) : (storedTheory E requested).Allows s t := by
  refine fun _ =>
    ⟨storedTheory_guar (by rw [hl]; rfl) he, fun op hop => hs op (ha ▸ hop), ha, fun op _ => ?_⟩
  rw [hl, entryRef_cons (by simp [hu])]

/-- An event of the code for `op`. -/
theorem storedTheory_allowsOwn {op : Op} {e : Event Op Blk π} {P : Prop}
    (hs : (storedTheory E requested).Inv s) (hw : op ∈ s.engine.active)
    (hu : ∀ o, e.user = some o → o = op) (he : e.isCall = false) (hP : P) :
    (storedTheory E requested).AllowsOwn op s (s.note e) P := by
  refine fun _ => ⟨storedTheory_guar rfl he, hs, ⟨rfl, fun o _ ho => ?_⟩, hw, hP⟩
  exact entryRef_cons (fun h => ho (hu o h)) _

/-- A value is memoized. -/
theorem storedTheory_memoize {v : Value Op Blk} {a : Answer π}
    (hs : (storedTheory E requested).Inv s)
    (hv : ∀ op i, v = .result op i → op ∈ s.engine.active → s.Canonical op i a) :
    (storedTheory E requested).Allows s ((s.memoize E.program v a).note (.memoized v a)) := by
  refine fun _ =>
    ⟨⟨fun op i b hlog hop => ?_, fun op hlog => ?_⟩, hs, rfl, fun op _ => entryRef_cons
    (by simp [Event.user]) _⟩
  · obtain ⟨rfl, rfl⟩ := Event.memoized.inj (Option.some.inj hlog)
    intro b hb
    exact hv op i rfl hop b hb
  · cases hlog

/-- `fill` leaves the entries of calls alone. -/
theorem storedTheory_fill {l : List (Answer π)} {e : ℕ} (hs : (storedTheory E requested).Inv s) :
    wp (storedTheory E requested).contract (fill E e l) s fun _ t =>
      (storedTheory E requested).Inv t ∧ (storedTheory E requested).Rel s t := by
  let T : Theory Op Blk σ π := storedTheory E requested
  have trans : ∀ {a b c : State Op Blk σ π}, T.Rel a b → T.Rel b c → T.Rel a c := fun h h' =>
    ⟨h'.1.trans h.1, fun op hop => (h'.2 op (h.1 ▸ hop)).trans (h.2 op hop)⟩
  refine wp_bind (wp_mono (wp_fillSlots (J := fun _ t => T.Inv t ∧ T.Rel s t) (fun j a t _ ht => ?_)
    ⟨hs, rfl, fun _ _ => rfl⟩) fun _ t ht => ?_)
  · refine wp_fillSlot (fun _ => trivial) (fun _ => ht) (fun _ _ _ _ => ht) fun entry v _ _ _ => ?_
    intro r u hr
    have hallow : T.Allows t u :=
      storedTheory_allows (e := .filled e (0 + j) v r.value) ht.1 rfl rfl rfl rfl
    obtain ⟨hg, hi, hrel⟩ := hallow hr
    exact ⟨hg, hi, trans ht.2 hrel⟩
  · refine wp_record fun hr => ?_
    have hallow : T.Allows t (t.note (.stored e)) := storedTheory_allows ht.1 rfl rfl rfl rfl
    obtain ⟨hg, hi, hrel⟩ := hallow hr
    exact ⟨hg, hi, trans ht.2 hrel⟩

/-- What is known of the lookup stays so. -/
theorem storedTheory_ready {op : Op} {cached : Option CacheLookup}
    (h : (storedTheory E requested).Ready s op cached) (hc : Continues s t)
    (hl : entryRef op t.log = entryRef op s.log) :
    (storedTheory E requested).Ready t op cached := by
  rcases cached with _ | ⟨key, _ | e, n⟩
  · exact hl.trans h
  · exact hl.trans h
  · exact hc.callEntry hl h

theorem storedTheory_scopeWrite (hs : (storedTheory E requested).Inv s) (h : ScopeWrite E s t) :
    (storedTheory E requested).Allows s t := by
  cases h <;> exact storedTheory_allows hs rfl rfl rfl rfl

/-- A method of a model leaves the entries of the calls alone it is part of. -/
theorem storedTheory_runScope {ask : Value Op Blk → EngineM Op Blk σ π (Answer π)}
    (ha : (storedTheory E requested).Asks ask s.engine.active)
    (hs : (storedTheory E requested).Inv s) {α : Type} (p : ScopeM Op Blk σ π α) :
    wp (storedTheory E requested).contract (runScope E ask p) s fun _ t =>
      (storedTheory E requested).Inv t ∧ (storedTheory E requested).Rel s t := by
  exact Theory.wp_runScope (T := storedTheory E requested) (fun _ => ⟨rfl, fun _ _ => rfl⟩)
    (fun a b c h h' => ⟨h'.1.trans h.1, fun op hop => (h'.2 op (h.1 ▸ hop)).trans (h.2 op hop)⟩)
    (fun _ _ h => h.1) (fun _ _ _ => trivial)
    (fun _ _ => trivial) (fun _ _ ht hu => storedTheory_scopeWrite ht hu) ha hs p

end Writes

section Places

variable {E : Setup Op Blk σ π} {requested : Op → ℕ → Prop} {s s' : State Op Blk σ π} {op : Op}
  {i : ℕ}

/-- A constant is not an operation with an entry. -/
theorem storedTheory_constant (hm : E.models.op op = none) (hs : (storedTheory E requested).Inv s) :
    wp (storedTheory E requested).contract (evaluateConstant E op) s fun r s' =>
      (storedTheory E requested).Inv s' ∧
        (storedTheory E requested).Rel s s' ∧
        (storedTheory E requested).Ans s' (.result op i) (.completed r.1) := by
  refine wp_mono
    (Theory.wp_evaluateConstant (T := storedTheory E requested) hs ⟨rfl, fun _ _ => rfl⟩
    (fun _ _ _ => storedTheory_allows hs rfl rfl rfl rfl) fun t ht =>
      storedTheory_scopeWrite hs ht) ?_
  rintro r t ⟨hi, hrel⟩
  refine ⟨hi, hrel, fun o j hv _ _ hact => ?_⟩
  obtain ⟨rfl, rfl⟩ := Value.result.inj hv
  exact hi op hact hm

/-- An operation that is entered has a model. -/
theorem storedTheory_enter {model : OpModel Op Blk σ π} (hm : E.models.op op = some model)
    (hs : (storedTheory E requested).Inv s) :
    (storedTheory E requested).contract.guar ((s.enter op).note (.entered op)) ∧
      (storedTheory E requested).Inv ((s.enter op).note (.entered op)) ∧
      (storedTheory E requested).Within ((s.enter op).note (.entered op)) op := by
  have hinv : ∀ o ∈ Insert.insert op s.engine.active, E.models.op o ≠ none := by
    intro o ho
    rcases Finset.mem_insert.mp ho with rfl | ho
    · simp [hm]
    · exact hs o ho
  refine ⟨⟨fun _ _ _ hlog => ?_, fun o hlog => ?_⟩, hinv, Finset.mem_insert_self op _⟩
  · cases hlog
  · obtain rfl := Event.entered.inj (Option.some.inj hlog)
    exact ⟨hinv, Finset.mem_insert_self op _⟩

/-- The entries in use stay the same when an operation is left. -/
theorem storedTheory_leave {a : Answer π} (hop : op ∉ s.engine.active)
    (hd : (storedTheory E requested).Does op ((s.enter op).note (.entered op)) s') :
    (storedTheory E requested).contract.guar ((s'.leave op).note (.left op)) ∧
      (storedTheory E requested).Inv ((s'.leave op).note (.left op)) ∧
      (storedTheory E requested).Rel s ((s'.leave op).note (.left op)) ∧
      (storedTheory E requested).Ans ((s'.leave op).note (.left op)) (.result op i) a := by
  have hact : s'.engine.active = Insert.insert op s.engine.active := hd.own.1
  have hleft : (s'.leave op).engine.active = s.engine.active := by
    simp [State.leave, hact, hop]
  refine ⟨storedTheory_guar rfl rfl, fun o ho => hd.inv o ?_, ⟨hleft, fun o ho => ?_⟩, ?_⟩
  · exact Finset.mem_of_mem_erase ho
  · have hne : o ≠ op := fun h => hop (h ▸ ho)
    have hown := hd.own.2 o (Finset.mem_insert_of_mem ho) hne
    refine (entryRef_cons (by simp [Event.user]) _).trans (hown.trans (entryRef_cons ?_ _))
    simpa [Event.user] using hne.symm
  · intro o j hv _ _
    obtain ⟨rfl, rfl⟩ := Value.result.inj hv
    change op ∉ (s'.leave op).engine.active
    rwa [hleft]

/-- The entry in use is the one that the lookup found. -/
theorem storedTheory_charge {cached : Option CacheLookup} (hs : (storedTheory E requested).Inv s)
    (hw : (storedTheory E requested).Within s op)
    (hc : (storedTheory E requested).Looked s op i cached)
    (hr : (storedTheory E requested).contract.rely (s.charge.note .charged)) :
    (storedTheory E requested).contract.guar (s.charge.note .charged) ∧
      (storedTheory E requested).AllowsOwn op s ((s.charge.note .charged).note (.evaluating op))
        ((storedTheory E requested).Ready ((s.charge.note .charged).note (.evaluating op))
            op cached ∧
         (storedTheory E requested).Running ((s.charge.note .charged).note (.evaluating op))
            op) := by
  have hallow : (storedTheory E requested).Allows s (s.charge.note .charged) :=
    storedTheory_allows hs rfl rfl rfl rfl
  refine ⟨(hallow hr).1, ?_⟩
  have hi : (storedTheory E requested).Inv (s.charge.note .charged) := (hallow hr).2.1
  intro hr'
  obtain ⟨hg, hinv, hown, hwithin, -⟩ := storedTheory_allowsOwn (e := .evaluating op) hi hw
    (by simp [Event.user]) rfl trivial hr'
  refine ⟨hg, hinv, ⟨hown.1, fun o ho hne => hown.2 o ho hne⟩, hwithin, ?_, trivial⟩
  rcases cached with _ | ⟨key, _ | e, n⟩
  · exact hc
  · exact hc.1
  · exact State.callEntry_of_candidate hc.1.1 hc.1.2

/-- The entry in use is the one that is appended. -/
theorem storedTheory_appendEntry {key : HashCode} {l : List (Answer π)}
    (hs : (storedTheory E requested).Inv s) (hw : (storedTheory E requested).Within s op) :
    wp (storedTheory E requested).contract (appendEntry E op key l) s fun e s' =>
      (storedTheory E requested).Inv s' ∧
        (storedTheory E requested).Own op s s' ∧
        (storedTheory E requested).Within s' op ∧
        (storedTheory E requested).Kept s' op e := by
  refine wp_bind (wp_read (wp_bind (wp_record fun _ => ?_)))
  generalize ht : (s.append op key l.length).note (.appended op key s.cache.arena.length) = t
  have hinv : (storedTheory E requested).Inv t := by subst ht; exact hs
  have hact : t.engine.active = s.engine.active := by subst ht; rfl
  have hentry : t.callEntry op = some s.cache.arena.length := by
    subst ht
    simp [State.callEntry, State.note, entryRef]
  refine ⟨storedTheory_guar (by subst ht; rfl) rfl, wp_bind ?_⟩
  refine wp_mono (wp_stepsAt Continues.refl (fun _ _ _ => Continues.trans) (continuing_fill _ l t)
    (storedTheory_fill hinv)) fun _ u hu => ?_
  obtain ⟨⟨hiu, hrel⟩, hc⟩ := hu
  refine wp_pure ⟨hiu, ⟨hrel.1.trans hact, fun o ho hne => ?_⟩, ?_, ?_⟩
  · refine (hrel.2 o (hact ▸ ho)).trans ?_
    subst ht
    exact entryRef_cons (by simpa [Event.user] using hne.symm) _
  · change op ∈ u.engine.active
    rwa [hrel.1, hact]
  · exact hc.callEntry (hrel.2 op (hact ▸ hw)) hentry

end Places

/-- **The answers of calls are the stored ones.** -/
theorem storedTheory_sound [Fintype Op] (E : Setup Op Blk σ π) (requested : Op → ℕ → Prop) :
    (storedTheory E requested).Sound E where
  rel_refl _ := ⟨rfl, fun _ _ => rfl⟩
  rel_trans _ _ _ h h' := ⟨h'.1.trans h.1, fun op hop => (h'.2 op (h.1 ▸ hop)).trans (h.2 op hop)⟩
  own_of_rel _ _ _ h := ⟨h.1, fun o ho _ => h.2 o ho⟩
  own_trans _ _ _ _ h h' :=
    ⟨h'.1.trans h.1, fun o ho hne => (h'.2 o (h.1 ▸ ho) hne).trans (h.2 o ho hne)⟩
  own_active _ _ _ h := h.1
  within_stable s s' op hm hw := by
    change op ∈ s'.engine.active
    rwa [hm.rel.1]
  unevaluated_stable _ _ _ _ _ _ := trivial
  running_stable _ _ _ _ _ _ := trivial
  missed_stable s s' op key n hm hw h := (hm.rel.2 op hw).trans h
  found_stable s s' op key n e hm hw h :=
    ⟨(hm.rel.2 op hw).trans h.1, hm.continues.cache.getElem? h.2⟩
  kept_stable s s' op e hm hw h := hm.continues.callEntry (hm.rel.2 op hw) h
  results_stable _ _ _ _ _ _ _ := trivial
  unanswered _ _ _ _ _ := trivial
  memo_hit s v a _ _ hmemo op i _ _ hnone := by simp [hmemo] at hnone
  memo_add s s' v a _ hm ha hcomp hnone :=
    storedTheory_memoize hm.inv fun op i hv hop => absurd hop (ha op i hv hcomp hnone)
  ans_memoized s v a _ _ op i _ _ hnone := by simp [State.memo, State.note, State.memoize] at hnone
  arg s b i _ _ op j hv := by cases hv
  invalid _ _ _ _ _ _ := trivial
  constant _ _ _ hm hs _ _ := storedTheory_constant hm hs
  cycle s op i model _ _ _ _ _ o j _ hcomp := by simp [Answer.isCompleted] at hcomp
  enter _ _ _ _ hm hs _ _ _ _ _ := storedTheory_enter hm hs
  leave _ _ _ _ _ _ _ _ hop hd _ _ := storedTheory_leave hop hd
  cacheable s op model ask _ ha hs hw hlog := by
    refine wp_mono (storedTheory_runScope ha hs _) fun r t ht => ?_
    obtain ⟨log, hl⟩ := List.head?_eq_some_iff.mp hlog
    have hnone : entryRef op t.log = none := (ht.2.2 op hw).trans (by simp [hl, entryRef])
    exact ⟨ht.1, ht.2, fun _ => hnone, fun _ => hnone, fun _ _ => trivial,
      fun _ _ _ _ _ => State.Canonical.of_none hnone⟩
  hash s op model ask _ ha hs hw he _ :=
    wp_mono (storedTheory_runScope ha hs _) fun r t ht =>
      have hnone : entryRef op t.log = none := (ht.2.2 op hw).trans he
      ⟨ht.1, ht.2, fun _ _ => hnone, fun _ _ _ _ _ => State.Canonical.of_none hnone⟩
  unevaluated_search _ _ _ _ _ := trivial
  searching s op key hs hw hkey := storedTheory_allowsOwn hs hw (by simp [Event.user]) rfl hkey
  candidate_range _ _ _ _ _ _ _ := trivial
  scan_length _ _ _ _ _ _ _ := trivial
  own s op key n e entry hs hw _ hb _ _ := by
    refine storedTheory_allowsOwn hs hw (by simp [Event.user]) rfl ⟨?_, hb⟩
    simp [State.note, entryRef, Verdict.isMatch]
  shape s op key n e entry hs hw hn _ _ _ _ :=
    storedTheory_allowsOwn hs hw (by simp [Event.user]) rfl (entryRef_mismatch hn rfl)
  equivalent s op key n e entry model ask _ ha hs _ _ _ _ _ _ :=
    wp_mono (storedTheory_runScope ha hs _) fun r t ht => ⟨ht.1, ht.2, trivial⟩
  skipped s op key n e entry st hs hw hn _ _ _ _ _ :=
    storedTheory_allowsOwn hs hw (by simp [Event.user]) rfl (entryRef_mismatch hn rfl)
  different s op key n e entry hs hw hn _ _ _ _ _ :=
    storedTheory_allowsOwn hs hw (by simp [Event.user]) rfl (entryRef_mismatch hn rfl)
  matching s op key n e entry hs hw _ hb _ _ _ _ := by
    refine storedTheory_allowsOwn hs hw (by simp [Event.user]) rfl ⟨?_, hb⟩
    simp [State.note, entryRef, Verdict.isMatch]
  exhausted s op i cached _ _ _ _ hc _ := by
    rcases cached with _ | ⟨key, _ | e, n⟩
    · exact fun _ => State.Canonical.of_none hc
    · exact fun _ => State.Canonical.of_none hc.1
    · obtain ⟨⟨href, hb⟩, entry, he, hi⟩ := hc
      exact fun _ => State.Canonical.of_empty (State.callEntry_of_candidate href hb) he hi
  charge _ _ _ _ hs hw _ _ hc _ hr := storedTheory_charge hs hw hc hr
  evaluates s op model ask cached _ ha hs hw hc := by
    refine wp_mono (wp_stepsAt Continues.refl (fun _ _ _ => Continues.trans)
      (continuing_runScope ha.continuing _ s) (storedTheory_runScope ha hs _)) fun l t ht => ?_
    exact ⟨ht.1.1, ht.1.2, trivial, storedTheory_ready hc ht.2 (ht.1.2.2 op hw)⟩
  count _ _ _ _ _ _ _ := trivial
  evaluated s op l cached hs hw _ hc _ _ :=
    storedTheory_allowsOwn hs hw (by simp [Event.user]) rfl
      ⟨storedTheory_ready hc (.noted (by simp) s) rfl, trivial⟩
  evaluated_stable _ _ _ _ _ _ _ := trivial
  ready_stable s s' op cached hm hw hc := storedTheory_ready hc hm.continues (hm.rel.2 op hw)
  ready s op cached _ _ _ _ hc := by rcases cached with ⟨key, _ | e, n⟩ <;> exact hc
  reuse s op key n e l hs _ _ _ := storedTheory_allows hs rfl rfl rfl rfl
  fill s₀ s op e l hs _ _ _ _ _ _ _ := storedTheory_fill hs
  append _ _ _ _ _ _ hs hw _ _ _ _ _ _ _ := storedTheory_appendEntry hs hw
  kept s op key n e _ _ hf := State.callEntry_of_candidate hf.1 hf.2
  kept_range _ _ _ _ _ _ _ _ := trivial
  kept_slot s op e entry i a _ _ hk he hi _ := State.Canonical.of_slot hk he hi
  unstored s op l cached hr _ _ hc hlog hfreeze i a hi ha := by
    intro b hb
    cases cached with
    | none => simp [State.stored_of_none (State.callEntry_of_none hc)] at hb
    | some cached =>
      obtain ⟨hcomp, hreq⟩ := hr op i a ⟨l, hlog, hi, hfreeze (by simp), by simp [hb]⟩
      rcases ha with ha | ha
      · simp [ha] at hcomp
      · exact absurd ha hreq
  unstored_stable s s' op l hm hc hw h i a hi ha b hb := by
    rw [State.stored_of_eq hc (hm.rel.2 op hw)] at hb
    exact h i a hi ha b hb
  result s op l i a _ _ _ hi hkept ha := by
    rcases hkept with hun | ⟨e, entry, hk, he, hslot⟩
    · exact hun i a hi ha
    · exact State.Canonical.of_empty hk he hslot
  memo_own s op i a hs _ ha _ hcomp _ := by
    refine storedTheory_memoize hs fun o j hv _ => ?_
    obtain ⟨rfl, rfl⟩ := Value.result.inj hv
    exact ha (Or.inl hcomp)
  hit s op key n e entry i a _ _ _ hf he hi _ :=
    State.Canonical.of_slot (State.callEntry_of_candidate hf.1 hf.2) he hi
  finish _ _ _ _ _ _ _ _ _ _ h := h

/-! ## Every call, every history -/

section Histories

variable [Fintype Op] {E : Setup Op Blk σ π} {requested : Op → ℕ → Prop}

theorem storedTheory_query {s : State Op Blk σ π} (hs : (storedTheory E requested).Inv s)
    (engine budget : ℕ) (value : Value Op Blk) :
    wp (storedTheory E requested).contract (query E engine budget value) s fun _ t =>
      (storedTheory E requested).Inv t := by
  refine wp_query (fun _ => trivial) fun _ => ⟨storedTheory_guar rfl rfl, ?_⟩
  refine wp_mono ((storedTheory_sound E requested).wp_compute (Nat.lt_succ_self _) hs trivial
    trivial (by omega)) fun r t ht => ?_
  exact wp_handOut
    (fun _ => ⟨fun _ => trivial, fun _ _ => ⟨storedTheory_guar rfl rfl, ht.1⟩⟩)
    fun v _ => fun _ => ⟨storedTheory_guar rfl rfl, fun _ => trivial,
      fun _ _ => ⟨storedTheory_guar rfl rfl, ht.1⟩⟩

/-- The contract is kept in all states of a history and of one more query, if none of them passes a
stored answer over. -/
theorem storedTheory_history (requested : Op → ℕ → Prop) {past : List (State Op Blk σ π)}
    {s : State Op Blk σ π}
    (h : History E past s) (engine budget : ℕ) (value : Value Op Blk)
    (hr : ∀ t ∈ past ++ (query E engine budget value s).visited,
      (storedTheory E requested).contract.rely t) :
    ∀ t ∈ past ++ (query E engine budget value s).visited,
      (storedTheory E requested).contract.guar t := by
  let T : Theory Op Blk σ π := storedTheory E requested
  obtain ⟨hs, hpast⟩ : T.Inv s ∧ ∀ t ∈ past, T.contract.guar t := by
    have hinit : ∀ w, T.Inv (State.init w) ∧ T.contract.guar (State.init w) := fun w =>
      ⟨fun op hop => absurd hop (Finset.notMem_empty op), by rintro _ _ _ ⟨⟩, by rintro _ ⟨⟩⟩
    refine h.invariant_of_rely hinit (fun s engine budget value _ hs hr => ?_)
      (fun s hs => ⟨hs, storedTheory_guar rfl rfl⟩) fun t ht => hr t (List.mem_append_left _ ht)
    obtain ⟨hg, hq, -⟩ := storedTheory_query hs engine budget value hr
    exact ⟨hg, fun r s' hr => hq r s' hr⟩
  obtain ⟨hg, -, -⟩ := storedTheory_query hs engine budget value fun t ht =>
    hr t (List.mem_append_right _ ht)
  intro t ht
  rcases List.mem_append.mp ht with ht | ht
  · exact hpast t ht
  · exact hg t ht

/-- The rest of a call of `Engine::compute` for the result `i` of an operation, after it was
entered. -/
def callRun (E : Setup Op Blk σ π) (depth : ℕ) (op : Op) (i : ℕ) (model : OpModel Op Blk σ π) :
    EngineM Op Blk σ π (Answer π × CacheOutcome) :=
  computeActive E (evaluate E (compute E (Fintype.card Op + 1) depth))
    (Fintype.card Op + 1) op i model

/-- **Answers are the stored ones unless they are passed over.**  Let, in a run of any models, no
completed answer be passed over.  Then every answer that a call for an operation memoizes is the one
its entry stores for that result, if it stores one.  So is the answer a call returns for the result
it is asked for, if no answer for that result is passed over in the call. -/
theorem answers_stored {past : List (State Op Blk σ π)} {s : State Op Blk σ π}
    (h : History E past s)
    (engine budget : ℕ) (value : Value Op Blk)
    (hover : ∀ t ∈ past ++ (query E engine budget value s).visited, ∀ op i a, t.PassesOver op i a →
      a.isCompleted = false) :
    ∀ t ∈ past ++ (query E engine budget value s).visited,
      (∀ op i a, t.log.head? = some (.memoized (.result op i) a) → op ∈ t.engine.active →
        t.Canonical op i a) ∧
      ∀ op i model depth, t.log.head? = some (.entered op) → E.models.op op = some model →
        i < E.program.numResults op → Fintype.card Op < depth + t.engine.active.card →
        (∀ u ∈ (callRun E depth op i model t).visited, ∀ o j a, u.PassesOver o j a →
          a.isCompleted = false ∧ ¬ (o = op ∧ j = i)) →
        ∀ r u, (callRun E depth op i model t).outcome = .ok (r, u) → u.Canonical op i r.1 := by
  intro t ht
  obtain ⟨hmemo, hentered⟩ := storedTheory_history (fun _ _ => False) h engine budget value
    (fun t ht op i a hp => ⟨hover t ht op i a hp, not_false⟩) t ht
  refine ⟨hmemo, fun op i model depth hlog hm hi hdepth hcall r u hr => ?_⟩
  obtain ⟨hinv, hact⟩ := hentered op hlog
  let T : Theory Op Blk σ π := storedTheory E fun o j => o = op ∧ j = i
  have hsound : T.Sound E := storedTheory_sound E _
  have hasks : T.Asks (evaluate E (compute E (Fintype.card Op + 1) depth)) t.engine.active :=
    hsound.asks (Nat.lt_succ_self _) hdepth
  have hwp := hsound.wp_computeActive hm hasks (Nat.lt_succ_self _) hinv hact hlog hi
  obtain ⟨-, hdone, -⟩ := hwp hcall
  exact (hdone r u hr).2 (Or.inr ⟨rfl, rfl⟩)

end Histories

/-! ## A loop over an operation with two results -/

/-- Models for operations that loop once over the operations of their body, and for operations that
answer their first result with the answer of their operand and their second one with a value of its
own. -/
def siblingModels (P : Program Op Blk) (payload : π) : Models Op Blk σ π where
  op op := some {
    isCacheable := pure (.completed (P.regions op).isEmpty)
    getHash := pure (.completed 0)
    isEquivalentTo _ := pure (.completed false)
    evaluate :=
      match P.regions op, P.operands op with
      | [[body]], _ => do
        let argument ← EvalScope.allocate payload
        EvalScope.withFreeze (EvalScope.withBinding body [.known argument]
          (queryAll ((P.ops body).map fun o => .result o 0)))
        return List.replicate (P.numResults op) .unknown
      | _, operand :: _ => do
        let first ← EvalScope.query operand
        return [first, .known (← EvalScope.allocate payload)]
      | _, _ => return List.replicate (P.numResults op) .unknown }
  attr _ := none

/-- An engine for `pairProgram`. -/
abbrev pairSetup : Setup (Fin 3) (Fin 2) Unit Unit :=
  ⟨pairProgram, siblingModels pairProgram (), .next⟩

/-- Is the event a memoized answer that is not the one stored for its result? -/
def State.memoizesOther [DecidableEq π] (s : State Op Blk σ π) : Bool :=
  match s.log.head? with
  | some (.memoized (.result op i) a) =>
    decide (op ∈ s.engine.active) && (s.stored op i).any fun b => a ≠ b
  | _ => false

/-- If `evaluate` has just returned, the cache is not frozen, and some answer is known. -/
def State.keepsAnswers (s : State Op Blk σ π) : Bool :=
  match s.log.head? with
  | some (.evaluated _ l) => decide (s.engine.freezes = 0) && l.any Answer.isKnown
  | _ => true

omit [DecidableEq Blk] in
theorem State.keepsAnswers.not_passesOver {s : State Op Blk σ π} (h : s.keepsAnswers = true)
    {op : Op} {i : ℕ} {a : Answer π} : ¬ s.PassesOver op i a := by
  rintro ⟨l, hlog, -, hkeep, -⟩
  simp only [State.keepsAnswers, hlog, Bool.and_eq_true, decide_eq_true_eq] at h
  rcases hkeep with hfreeze | hknown
  · exact hfreeze h.1
  · simp [h.2] at hknown

/-- **A frozen cache makes an operation forget what it has stored.**  The first query stores an
answer for the second result of the operation, whose first one is unknown outside of the loop.  In
the loop the operation is found, but is evaluated again for its first result, and the fresh answer
for the second one is memoized. -/
theorem memoizes_other_pairProgram :
    ∃ past s, History pairSetup past s ∧ ∃ t ∈ (query pairSetup 0 100 (.result 1 0) s).visited,
      ∃ op i a, t.log.head? = some (.memoized (.result op i) a) ∧ op ∈ t.engine.active ∧
        ¬ t.Canonical op i a := by
  have hfirst : (query pairSetup 0 100 (.result 0 1) (State.init ())).value?.isSome = true := by
    decide +kernel
  obtain ⟨r, hr⟩ := Option.isSome_iff_exists.mp hfirst
  obtain ⟨s, hs⟩ := Run.outcome_of_value? hr
  have hsecond :
      ((query pairSetup 0 100 (.result 0 1) (State.init ())).outcome.toOption.any fun r =>
      (query pairSetup 0 100 (.result 1 0) r.2).visited.any State.memoizesOther) = true := by
    decide +kernel
  rw [hs] at hsecond
  obtain ⟨t, ht, hother⟩ := List.any_eq_true.mp hsecond
  rw [State.memoizesOther] at hother
  split at hother
  · next op i a hlog =>
    obtain ⟨hactive, hstored⟩ := Bool.and_eq_true_iff.mp hother
    obtain ⟨b, hb, hne⟩ := (Option.any_eq_true _ _).mp hstored
    exact ⟨_, s, .query 0 100 (.result 0 1) (by decide) (.init ()) hs, t, ht, op, i, a, hlog,
      of_decide_eq_true hactive, fun h => of_decide_eq_true hne (h b hb)⟩
  · cases hother

/-- Does the event memoize an answer of an operation that is being evaluated? -/
def State.memoizesOwn (s : State Op Blk σ π) : Bool :=
  match s.log.head? with
  | some (.memoized (.result op _) _) => decide (op ∈ s.engine.active)
  | _ => false

/-- Outside of the loop the answers are the stored ones. -/
theorem answers_stored_pairProgram :
    ∃ t ∈ (query pairSetup 0 100 (.result 0 1) (State.init ())).visited, ∃ op i a,
      t.log.head? = some (.memoized (.result op i) a) ∧ op ∈ t.engine.active ∧
        t.Canonical op i a := by
  have hkeep :
      ((query pairSetup 0 100 (.result 0 1) (State.init ())).visited.all State.keepsAnswers) =
      true := by decide +kernel
  have hmemoizes :
      ((query pairSetup 0 100 (.result 0 1) (State.init ())).visited.any State.memoizesOwn) =
      true := by decide +kernel
  obtain ⟨t, ht, hown⟩ := List.any_eq_true.mp hmemoizes
  rw [State.memoizesOwn] at hown
  split at hown
  · next op i a hlog =>
    refine ⟨t, ht, op, i, a, hlog, of_decide_eq_true hown, ?_⟩
    refine (answers_stored (.init ()) 0 100 (.result 0 1) (fun u hu o j b hp => ?_) t
      (List.mem_append_right _ ht)).1 op i a hlog (of_decide_eq_true hown)
    refine absurd hp (State.keepsAnswers.not_passesOver ?_)
    rcases List.mem_append.mp hu with hu | hu
    · rw [List.mem_singleton.mp hu]
      rfl
    · exact List.all_eq_true.mp hkeep u hu
  · cases hown

end MlirInterpreter
