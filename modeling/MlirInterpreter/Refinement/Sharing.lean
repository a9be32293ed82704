import MlirInterpreter.Refinement.Queries
import MlirInterpreter.Sharing.Budget
import MlirInterpreter.Sharing.Unique

/-!
# Budgets and shared entries

What the machine keeps in all its runs, queries keep after any history of a program without loops.

* What a budget suffices for, a larger one suffices for too (`more_budget_completes`).
* If the hashes of different keys differ, there is one entry for each key, and one evaluation with a
  known answer, from one `clearCache` to the next (`one_entry_per_key`).
-/

set_option autoImplicit false

namespace MlirInterpreter

open Recorded Arith

variable {Op Blk σ : Type} [DecidableEq Op] [DecidableEq Blk] [Fintype Op] {P : Program Op Blk}
  {H : HashFns Op Blk} {mem : Malloc} {past : List (State Op Blk σ APInt)}
    {s t : State Op Blk σ APInt}
  {v : Value Op Blk}

/-! ## Budgets -/

/-- **More budget does not hurt.**  What a query completes, after any history, a query of any engine
with a larger budget completes with an equal answer. -/
theorem more_budget_completes (hP : P.Verified) (hA : P.Acyclic) (hL : P.LoopFree)
    (h : History (shipped P H mem) past s) (hv : P.Valid v) {engine N N' : ℕ} (engine' : ℕ)
    (hle : N ≤ N') {a : Answer APInt} {outcome : CacheOutcome}
    (hr : (query (shipped P H mem) engine N v s).outcome = .ok ((a, outcome), t))
    (ha : a.isCompleted = true) :
    ∃ a' outcome' t', (query (shipped P H mem) engine' N' v s).outcome = .ok ((a', outcome'), t') ∧
      a'.isCompleted = true ∧ a'.payload? = a.payload? := by
  have hq := flat_query hP hA hL h (flat_history hP hA hL h) hv hr
  obtain ⟨a', outcome', t', hr', hq', -⟩ := query_queried hP hA hL h engine' N' hv
  obtain ⟨S, hrun, -⟩ := hq.run
  obtain ⟨S', hrun', -⟩ := hq'.run
  rw [Answer.reply_of_isCompleted ha] at hrun
  have hlocked : Sharing.Locked ((s.sharing P).restart N) ((s.sharing P).restart N') :=
    ⟨rfl, rfl, hle⟩
  have ha' : a'.isCompleted = true :=
    Answer.isCompleted_of_reply (hrun.done_of_le hlocked (by simp) hrun')
  exact ⟨a', outcome', t', hr', ha', (hq'.payload ha').trans (hq.payload ha).symm⟩

/-- One step suffices for the two sums of `sumProgram`, and so do three. -/
theorem more_budget_completes_sumProgram :
    ∃ a outcome t, (query sumSetup 1 3 (.result 3 0) (State.init ())).outcome =
      .ok ((a, outcome), t) ∧
      a.isCompleted = true ∧ a.payload? = some ⟨indexWidth, 5⟩ := by
  have hrun : (query sumSetup 0 1 (.result 3 0) (State.init ())).value?.map
      (fun r => r.1.payload?) =
      some (some ⟨indexWidth, 5⟩) := by decide +kernel
  obtain ⟨w, outcome, t, hr, hw⟩ := query_known hrun
  obtain ⟨a', outcome', t', hr', ha', heq⟩ :=
    more_budget_completes sumProgram_verified sumProgram_acyclic
    sumProgram_loopFree (.init ()) (by decide) 1 (show 1 ≤ 3 by decide) hr rfl
  exact ⟨a', outcome', t', hr', ha', heq.trans (congrArg some hw)⟩

/-! ## Entries -/

/-- The hashes of different keys differ. -/
def Arith.NoCollision (P : Program Op Blk) (H : HashFns Op Blk) : Prop :=
  ∀ op other, P.isArith op = true → P.isArith other = true →
    hashKey P H op (semanticKey P op) = hashKey P H other (semanticKey P other) →
      SharesKey P op other

theorem sharingGraph_noCollision (hH : Arith.NoCollision P H) : (sharingGraph P H).NoCollision := by
  intro op other h
  change (if P.isArith op then _ else _) = (if P.isArith other then _ else _) at h
  cases harith : P.isArith op <;> cases hother : P.isArith other <;>
    simp only [harith, hother, if_true, Bool.false_eq_true, if_false, Sum.inl.injEq, Sum.inr.injEq,
      reduceCtorEq] at h
  · exact h ▸ .refl op
  · exact hH op other harith hother h

theorem sharingGraph_acyclic (hA : P.Acyclic) : (sharingGraph P H).Acyclic := fun op h =>
  hA op (h.lift id fun _ _ hneeds => (demands_of_needs hneeds).2)

/-- The entries were completed in an order that respects needs. -/
theorem ranked_history (hP : P.Verified) (hA : P.Acyclic) (hL : P.LoopFree)
    (hH : Arith.NoCollision P H) (h : History (shipped P H mem) past s) :
    ∃ o, Sharing.Ranked (sharingGraph P H) o (s.sharing P) := by
  have hempty : ∀ {s : State Op Blk σ APInt}, (∀ v, s.memo v = none) → s.cache.arena = [] →
      Sharing.Ranked (sharingGraph P H) [] (s.sharing P) := by
    intro s hmemo harena
    refine .start ?_ (congrArg (List.map CacheEntry.op) harena)
    rw [State.sharing_eq_restart hmemo]
    rfl
  induction h with
  | init w => exact ⟨[], hempty (evalTheory_history hP (.init (E := shipped P H mem) w)).1.memo rfl⟩
  | query engine budget v hv h hr ih =>
    obtain ⟨o, ho⟩ := ih
    obtain ⟨S, hrun, hend⟩ := (flat_query hP hA hL h (flat_history hP hA hL h) hv hr).run
    obtain ⟨o', -, hS, -⟩ := hrun.ranked (sharingGraph_lawful hP hA) (sharingGraph_acyclic hA)
      (sharingGraph_noCollision hH) (ho.restart budget) fun _ _ _ hm => by simp at hm
    exact ⟨o', hend ▸ hS.restart _⟩
  | clear h hr _ =>
    simp only [clearCache, record, Rec.write, Except.ok.injEq, Prod.mk.injEq, true_and] at hr
    subst hr
    exact ⟨[], hempty (evalTheory_history hP h).1.memo rfl⟩

/-- No two operations have equal keys. -/
abbrev KeysDiffer (P : Program Op Blk) (l : List Op) :
    Prop := l.Pairwise fun op other => ¬ SharesKey P op other

theorem KeysDiffer.reverse {l : List Op} (h : KeysDiffer P l) : KeysDiffer P l.reverse :=
  List.pairwise_reverse.mpr (h.imp fun hne hshares => hne hshares.symm)

omit [DecidableEq Op] [Fintype Op] in
theorem EvalCache.Extends.ops {π : Type} {c c' : EvalCache Op π} (h : c.Extends c') :
    c.arena.map CacheEntry.op <+: c'.arena.map CacheEntry.op := by
  rw [List.prefix_iff_getElem?]
  intro i hi
  rw [List.length_map] at hi
  obtain ⟨entry', hentry', hx⟩ := h.arena i _ (List.getElem?_eq_getElem hi)
  rw [List.getElem?_map, hentry', List.getElem_map, Option.map_some, hx.op]

theorem keysDiffer_of_history (hP : P.Verified) (hA : P.Acyclic) (hL : P.LoopFree)
    (hH : Arith.NoCollision P H) (h : History (shipped P H mem) past s) :
    KeysDiffer P (s.cache.arena.map CacheEntry.op) :=
  (ranked_history hP hA hL hH h).choose_spec.unique

/-- In the states of a query there are no entries that are not there when it has ended. -/
theorem query_extends {E : Setup Op Blk σ APInt} {engine budget : ℕ}
    {r : Answer APInt × CacheOutcome} (hr : (query E engine budget v s).outcome = .ok (r, t))
    {u : State Op Blk σ APInt} (hu : u ∈ (query E engine budget v s).visited) :
    u.cache.Extends t.cache := by
  let R : State Op Blk σ APInt → State Op Blk σ APInt → Prop := fun a b => a.cache.Extends b.cache
  have hsteps :=
    steps_query_of (E := E) (R := R) (fun _ _ h => h.cache) (fun _ _ _ _ => .of_eq rfl rfl)
    (fun _ _ _ _ => .of_eq rfl rfl) (fun _ _ _ _ => .of_eq rfl rfl) engine budget v s
  exact Chain.rel_end (R := R) (fun _ => .refl _) (fun _ _ _ => .trans) (hsteps.2 r t hr) u hu

/-- In every state of a history the entries have different keys. -/
theorem keysDiffer_past (hP : P.Verified) (hA : P.Acyclic) (hL : P.LoopFree)
    (hH : Arith.NoCollision P H) (h : History (shipped P H mem) past s) :
    ∀ t ∈ past, KeysDiffer P (t.cache.arena.map CacheEntry.op) := by
  have hempty : ∀ {t : State Op Blk σ APInt}, t.cache.arena = [] →
      KeysDiffer P (t.cache.arena.map CacheEntry.op) :=
    fun ht => by simp [ht]
  induction h with
  | init w =>
    intro t ht
    rw [List.mem_singleton.mp ht]
    exact hempty rfl
  | query engine budget v hv h hr ih =>
    intro t ht
    rcases List.mem_append.mp ht with ht | ht
    · exact ih t ht
    · exact (keysDiffer_of_history hP hA hL hH (.query engine budget v hv h hr)).sublist
        (query_extends hr ht).ops.sublist
  | clear h hr ih =>
    intro t ht
    rcases List.mem_append.mp ht with ht | ht
    · exact ih t ht
    · simp only [clearCache, record, Rec.write, List.mem_singleton] at ht
      exact ht ▸ hempty rfl

/-- **Equivalent operations share one entry.**  If the hashes of different keys differ, then in
every state of any history the entries have different keys, and so have the operations for which
since the cache was cleared an entry was made, and those that were evaluated with a known answer. -/
theorem one_entry_per_key (hP : P.Verified) (hA : P.Acyclic) (hL : P.LoopFree)
    (hH : Arith.NoCollision P H) (h : History (shipped P H mem) past s) :
    (∀ t ∈ past, KeysDiffer P (t.cache.arena.map CacheEntry.op)) ∧
      KeysDiffer P (appendedOps s.log) ∧
      KeysDiffer P (knownOps s.log) := by
  have hcache := flat_history hP hA hL h
  have hunique := (keysDiffer_of_history hP hA hL hH h).reverse
  exact ⟨keysDiffer_past hP hA hL hH h, hcache.appended ▸ hunique, hcache.known ▸ hunique⟩

/-- The sums of `sumProgram` have equal keys. -/
theorem sharesKey_sumProgram : SharesKey sumProgram 2 3 :=
  ⟨⟨rfl, rfl, rfl⟩, Or.inr ⟨by decide +kernel, by decide +kernel⟩⟩

theorem noCollision_sumProgram : Arith.NoCollision sumProgram .numbered := by
  intro op other hop hother _
  have sums : ∀ op, sumProgram.isArith op = true → op = 2 ∨ op = 3 := by decide
  rcases sums op hop with rfl | rfl <;> rcases sums other hother with rfl | rfl
  · exact .refl 2
  · exact sharesKey_sumProgram
  · exact sharesKey_sumProgram.symm
  · exact .refl 3

/-- One entry is made for the two sums. -/
theorem one_entry_per_key_sumProgram :
    ∃ past s, History sumSetup past s ∧ appendedOps s.log = [2] ∧
      (∀ t ∈ past, KeysDiffer sumProgram (t.cache.arena.map CacheEntry.op)) ∧
      KeysDiffer sumProgram (appendedOps s.log) ∧ KeysDiffer sumProgram (knownOps s.log) := by
  have hrun : (query sumSetup 0 2 (.result 3 0) (State.init ())).outcome.toOption.map
      (fun r => appendedOps r.2.log) = some [2] := by decide +kernel
  cases hr : (query sumSetup 0 2 (.result 3 0) (State.init ())).outcome with
  | error x =>
    rw [hr] at hrun
    cases hrun
  | ok r =>
    rw [hr] at hrun
    have h : History sumSetup _ r.2 := .query 0 2 (.result 3 0) (by decide) (.init ()) hr
    exact ⟨_, r.2, h, Option.some.inj hrun, one_entry_per_key sumProgram_verified sumProgram_acyclic
      sumProgram_loopFree noCollision_sumProgram h⟩

end MlirInterpreter
