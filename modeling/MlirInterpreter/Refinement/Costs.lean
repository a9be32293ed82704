import MlirInterpreter.Engine.Session
import MlirInterpreter.Refinement.Sharing
import MlirInterpreter.Sharing.Costs

/-!
# What queries cost

The costs of the machine's runs are those of the queries of a program without loops, after any
history.

* A step for every `arith` operation that the query can come across is enough (`enough_budget`).
* If the values of all `arith` operations are known, a session pays for each of them once at most,
  whatever it asks for, and in whatever order and with whatever budgets (`session_cost`).  So only
  so many queries that have a budget can be exhausted (`unanswered_budget`).
* If also hashes do not collide, what was answered once is answered for nothing from then on
  (`answered_again_free`).
-/

set_option autoImplicit false

namespace MlirInterpreter

open Recorded Arith

variable {Op Blk σ : Type} [Fintype Op] {P : Program Op Blk}
  {H : HashFns Op Blk} {mem : Malloc} {past : List (State Op Blk σ APInt)}
  {s t : State Op Blk σ APInt} {v : Value Op Blk} {a : Answer APInt} {budget : ℕ}

/-- The `arith` operations. -/
def Program.arithOps (P : Program Op Blk) : Finset Op :=
  Finset.univ.filter fun op => P.isArith op = true

theorem Program.mem_arithOps {op : Op} : op ∈ P.arithOps ↔ P.isArith op = true := by
  rw [arithOps, Finset.mem_filter]
  exact and_iff_right (Finset.mem_univ op)

/-! ## Enough -/

variable [DecidableEq Op] [DecidableEq Blk]

/-- The entries of the cache are for `arith` operations. -/
theorem FlatCache.isArith (hs : FlatCache P H s) : ∀ op ∈ (s.sharing P).entries,
    P.isArith op = true := by
  intro op hop
  obtain ⟨entry, hentry, rfl⟩ := List.mem_map.mp hop
  exact (hs.entries entry hentry).1

/-- **A step for every `arith` operation is enough.**  Let `N` contain the operations that the cache
has entries for, and the one that is queried, and be closed under operands.  Then a query with a
step for every `arith` operation of `N` completes, with the reference value. -/
theorem enough_budget (hP : P.Verified) (hA : P.Acyclic) (hL : P.LoopFree)
    (h : History (shipped P H mem) past s) (hv : P.Valid v) {N : Finset Op}
    (hclosed : ∀ op ∈ N, ∀ o, P.Demands op o → o ∈ N)
    (hcached : ∀ entry ∈ s.cache.arena, entry.op ∈ N)
    (hqueried : ∀ op i, v = .result op i → op ∈ N) (engine : ℕ)
    (hbudget : (N ∩ P.arithOps).card ≤ budget) :
    ∃ a outcome t, (query (shipped P H mem) engine budget v s).outcome = .ok ((a, outcome), t) ∧
      a.isCompleted = true ∧ a.payload? = P.denote v := by
  obtain ⟨a, outcome, t, hr, hq, hok⟩ := query_queried hP hA hL h engine budget hv
  have hcomp : a.isCompleted = true := by
    rcases a with w | (_ | _ | _)
    · rfl
    · -- An exhausted query would have evaluated all of `N`.
      obtain ⟨S, hrun, -⟩ := hq.run
      cases hop : P.arithOp? v with
      | none =>
        rw [hop] at hrun
        cases (hrun.askAll_memo (by simp)).1
      | some op =>
        rw [hop] at hrun
        obtain ⟨harith, i, rfl⟩ := Program.arithOp?_eq_some hop
        refine absurd rfl (hrun.of_askAll_singleton.ask_ne_exhausted (N := N ∩ P.arithOps)
          (fun op hop o ho => ?_) (by simp) ?_ (fun op hop => ?_) ?_)
        · obtain ⟨harith, hd⟩ := demands_of_needs ho
          exact Finset.mem_coe.mpr (Finset.mem_inter.mpr
            ⟨hclosed op (Finset.mem_inter.mp hop).1 o hd, Program.mem_arithOps.mpr harith⟩)
        · exact Finset.mem_inter.mpr ⟨hqueried op i rfl, Program.mem_arithOps.mpr harith⟩
        · obtain ⟨entry, hentry, rfl⟩ := List.mem_map.mp hop
          exact Finset.mem_coe.mpr (Finset.mem_inter.mpr ⟨hcached entry hentry,
            Program.mem_arithOps.mpr ((flat_history hP hA hL h).isArith _ hop)⟩)
        · exact .of_card_le hbudget
    · exact absurd rfl hok.order
    · exact absurd rfl (hok.cycle hA)
  exact ⟨a, outcome, t, hr, hcomp, hq.payload hcomp⟩

/-- One step suffices for the first sum of `sumProgram`, which needs two constants. -/
theorem enough_budget_sumProgram : ∃ a outcome t,
    (query sumSetup 0 1 (.result 2 0) (State.init ())).outcome = .ok ((a, outcome), t) ∧
      a.isCompleted = true ∧ a.payload? = sumProgram.denote (.result 2 0) := by
  have hneeds : ∀ op ∈ ({0, 1, 2} : Finset (Fin 5)), ∀ v ∈ sumProgram.dependencies op,
      ∃ o ∈ ({0, 1, 2} : Finset (Fin 5)), v = .result o 0 := by decide
  refine enough_budget sumProgram_verified sumProgram_acyclic sumProgram_loopFree (.init ())
    (by decide) (N := {0, 1, 2}) (fun op hop o ho => ?_) (by simp [State.init, EvalCache.empty])
    (fun op i heq => ?_) 0 (by decide)
  · obtain ⟨i, hi⟩ := ho
    obtain ⟨o', ho', heq⟩ := hneeds op hop _ hi
    exact (Value.result.inj heq).1 ▸ ho'
  · exact (Value.result.inj heq).1 ▸ by decide

/-! ## Paid once -/

/-- What a call cost. -/
def Exchange.cost {π : Type} : Exchange Op Blk π → ℕ
  | .query _ budget _ _ left => budget - left
  | .clear => 0

/-- What the calls of a session cost. -/
def sessionCost {π : Type} : List (Exchange Op Blk π) → ℕ
  | [] => 0
  | x :: l => x.cost + sessionCost l

/-- Every `arith` operation has a known value. -/
def Program.AllKnown (P : Program Op Blk) : Prop :=
  ∀ op, P.isArith op = true → (P.denote (.result op 0)).isSome = true

theorem sharingGraph_closed :
    (sharingGraph P H).Closed {op | P.isArith op = true} := fun _ _ _ ho => (demands_of_needs ho).1

omit [DecidableEq Op] [DecidableEq Blk] [Fintype Op] in
theorem taskInside_arith (v : Value Op Blk) :
    Sharing.TaskInside {op | P.isArith op = true} (.askAll (P.arithOp? v).toList) := by
  intro op hop
  exact (Program.arithOp?_eq_some (Option.mem_toList.mp hop)).1

/-- A query pays for the entries it makes. -/
theorem Queried.paidOnce (hknown : P.AllKnown) (hq : Queried P H s budget v a t)
    (hs : FlatCache P H s) (hnodup : (s.sharing P).entries.Nodup) :
    (t.sharing P).entries.Nodup ∧ t.engine.remaining ≤ budget ∧
      t.engine.remaining + t.cache.arena.length = budget + s.cache.arena.length := by
  obtain ⟨S, hrun, hend⟩ := hq.run
  obtain ⟨-, honce⟩ := hrun.paidOnce sharingGraph_closed hknown (by simp) (taskInside_arith v)
    hs.isArith hnodup
  have hrem : t.engine.remaining = S.remaining := congrArg Sharing.State.remaining hend
  have hentries : (t.sharing P).entries = S.entries := by rw [hend]; rfl
  have hlen : t.cache.arena.length = S.entries.length := by
    rw [← hentries, State.sharing, List.length_map]
  have hmade : S.evaluated.length + (s.cache.arena.map CacheEntry.op).length =
      (evaluatedOps s.log).length + S.entries.length := honce.made
  have hpaid : S.remaining + S.evaluated.length = budget + (evaluatedOps s.log).length :=
    hrun.grows.paid
  rw [List.length_map] at hmade
  exact ⟨hentries ▸ honce.nodup, hrem ▸ hrun.grows.remaining_le, by omega⟩

theorem nodup_history (hP : P.Verified) (hA : P.Acyclic) (hL : P.LoopFree) (hknown : P.AllKnown)
    (h : History (shipped P H mem) past s) : (s.sharing P).entries.Nodup := by
  induction h with
  | init w => exact List.nodup_nil
  | query engine budget v hv h hr ih =>
    have hs := flat_history hP hA hL h
    exact ((flat_query hP hA hL h hs hv hr).paidOnce hknown hs ih).1
  | clear h hr _ =>
    simp only [clearCache, record, Rec.write, Except.ok.injEq, Prod.mk.injEq, true_and] at hr
    subst hr
    exact List.nodup_nil

/-- There are no more entries than `arith` operations. -/
theorem arena_le_card (hP : P.Verified) (hA : P.Acyclic) (hL : P.LoopFree) (hknown : P.AllKnown)
    (h : History (shipped P H mem) past s) : s.cache.arena.length ≤ P.arithOps.card :=
  calc s.cache.arena.length = (s.sharing P).entries.length := (List.length_map _).symm
    _ = (s.sharing P).entries.toFinset.card :=
      (List.toFinset_card_of_nodup (nodup_history hP hA hL hknown h)).symm
    _ ≤ P.arithOps.card := Finset.card_le_card fun op hop => Program.mem_arithOps.mpr
      ((flat_history hP hA hL h).isArith op (List.mem_toFinset.mp hop))

/-- **A session pays for every operation once at most.**  If the values of all `arith` operations
are known, then between two `clearCache` calls queries cost as many steps as entries are made, and
no two entries are for the same operation: whatever is asked for, by any engines with any budgets,
exhausted or not, and whatever hashes collide. -/
theorem session_cost (hP : P.Verified) (hA : P.Acyclic) (hL : P.LoopFree) (hknown : P.AllKnown)
    (h : History (shipped P H mem) past s) {l : List (Exchange Op Blk APInt)}
    (hl : Session (shipped P H mem) s l t) (hclear : .clear ∉ l) :
    sessionCost l + s.cache.arena.length = t.cache.arena.length ∧
      (t.cache.arena.map CacheEntry.op).Nodup ∧ t.cache.arena.length ≤ P.arithOps.card := by
  have hcost : sessionCost l + s.cache.arena.length = t.cache.arena.length := by
    induction hl generalizing past with
    | nil s => exact Nat.zero_add _
    | @query s u t l engine budget v reply hv hr _ ih =>
      have hs := flat_history hP hA hL h
      obtain ⟨-, hle, hpaid⟩ := (flat_query hP hA hL h hs hv hr).paidOnce hknown hs
        (nodup_history hP hA hL hknown h)
      have hrest := ih (.query engine budget v hv h hr)
        fun hmem => hclear (List.mem_cons_of_mem _ hmem)
      show budget - u.engine.remaining + sessionCost l + s.cache.arena.length = _
      omega
    | clear _ _ => exact absurd List.mem_cons_self hclear
  obtain ⟨past', ht⟩ := hl.history h
  exact ⟨hcost, nodup_history hP hA hL hknown ht, arena_le_card hP hA hL hknown ht⟩

theorem allKnown_sumProgram : sumProgram.AllKnown := by
  have hknown : ∀ op, sumProgram.isArith op = true →
      (sumProgram.denote (.result op 0)).isSome = true := by decide +kernel
  exact hknown

/-- Two engines ask for the two sums. -/
theorem session_sumProgram (budget budget' : ℕ) : ∃ reply left reply' left' t,
    Session sumSetup (State.init ()) [.query 0 budget (.result 3 0) reply left,
      .query 1 budget' (.result 2 0) reply' left'] t := by
  have h : History sumSetup _ (State.init ()) := .init ()
  obtain ⟨a, oc, s, hr, -⟩ := query_queried sumProgram_verified sumProgram_acyclic
    sumProgram_loopFree h 0 budget (v := .result 3 0) (by decide)
  obtain ⟨a', oc', t, hr', -⟩ := query_queried sumProgram_verified sumProgram_acyclic
    sumProgram_loopFree (.query 0 budget (.result 3 0) (by decide) h hr) 1 budget'
    (v := .result 2 0) (by decide)
  exact ⟨_, _, _, _, t, .query 0 budget _ (by decide) hr
    (.query 1 budget' _ (by decide) hr' (.nil t))⟩

/-- The two sums share an entry. -/
theorem session_cost_sumProgram : ∃ l t, Session sumSetup (State.init ()) l t ∧ l.length = 2 ∧
    sessionCost l + 0 = t.cache.arena.length ∧ (t.cache.arena.map CacheEntry.op).Nodup ∧
    t.cache.arena.length ≤ sumProgram.arithOps.card := by
  obtain ⟨_, _, _, _, t, hl⟩ := session_sumProgram 2 2
  exact ⟨_, t, hl, rfl, session_cost sumProgram_verified sumProgram_acyclic
    sumProgram_loopFree allKnown_sumProgram (.init ()) hl (by simp)⟩

/-! ## Trying again -/

/-- The budget of a query that did not complete. -/
def Exchange.unanswered {π : Type} : Exchange Op Blk π → ℕ
  | .query _ budget _ reply _ => if reply.1.isCompleted then 0 else budget
  | .clear => 0

/-- The budgets of the queries of a session that did not complete. -/
def unansweredBudget {π : Type} : List (Exchange Op Blk π) → ℕ
  | [] => 0
  | x :: l => x.unanswered + unansweredBudget l

/-- **No try is in vain.**  If the values of all `arith` operations are known, then between two
`clearCache` calls the budgets of all queries that do not complete sum up to no more than the number
of `arith` operations that have no entry at first.  So a value that is asked for again and again
with some budget, by any engines and whatever is asked for in between, is answered at last. -/
theorem unanswered_budget (hP : P.Verified) (hA : P.Acyclic) (hL : P.LoopFree) (hknown : P.AllKnown)
    (h : History (shipped P H mem) past s) {l : List (Exchange Op Blk APInt)}
    (hl : Session (shipped P H mem) s l t) (hclear : .clear ∉ l) :
    unansweredBudget l + s.cache.arena.length ≤ P.arithOps.card := by
  have hmade : unansweredBudget l + s.cache.arena.length ≤ t.cache.arena.length := by
    induction hl generalizing past with
    | nil s => exact Nat.le_of_eq (Nat.zero_add _)
    | @query s u t l engine budget v reply hv hr _ ih =>
      obtain ⟨a, outcome, u', hr', hq, hok⟩ := query_queried hP hA hL h engine budget hv
      obtain ⟨rfl, rfl⟩ : reply = (a, outcome) ∧ u = u' := by simpa [hr'] using hr.symm
      obtain ⟨-, hle, hpaid⟩ := hq.paidOnce hknown (flat_history hP hA hL h)
        (nodup_history hP hA hL hknown h)
      have hrest := ih (.query engine budget v hv h hr)
        fun hmem => hclear (List.mem_cons_of_mem _ hmem)
      have hfirst : (if a.isCompleted then 0 else budget) + s.cache.arena.length ≤
          u.cache.arena.length := by
        rcases a with w | (_ | _ | _)
        · change 0 + _ ≤ _
          omega
        · -- An exhausted query has spent its budget on entries.
          have hspent := hok.exhausted rfl
          change budget + _ ≤ _
          omega
        · exact absurd rfl hok.order
        · exact absurd rfl (hok.cycle hA)
      change (if a.isCompleted then 0 else budget) + unansweredBudget l + s.cache.arena.length ≤ _
      omega
    | clear _ _ => exact absurd List.mem_cons_self hclear
  obtain ⟨past', ht⟩ := hl.history h
  exact hmade.trans (arena_le_card hP hA hL hknown ht)

/-- The first query has no budget, and the second one a step. -/
theorem unanswered_budget_sumProgram : ∃ l t, Session sumSetup (State.init ()) l t ∧
    l.length = 2 ∧ unansweredBudget l + 0 ≤ sumProgram.arithOps.card := by
  obtain ⟨_, _, _, _, t, hl⟩ := session_sumProgram 0 1
  exact ⟨_, t, hl, rfl, unanswered_budget sumProgram_verified sumProgram_acyclic
    sumProgram_loopFree allKnown_sumProgram (.init ()) hl (by simp)⟩

/-! ## Free ever after -/

/-- What a session has completed is in the order of completions. -/
theorem ranked_session (hP : P.Verified) (hA : P.Acyclic) (hL : P.LoopFree)
    (hH : Arith.NoCollision P H) (h : History (shipped P H mem) past s)
    {l : List (Exchange Op Blk APInt)} (hl : Session (shipped P H mem) s l t) (hclear : .clear ∉ l)
    {o : List Op} (ho : Sharing.Ranked (sharingGraph P H) o (s.sharing P)) :
    ∃ o', o <+: o' ∧ Sharing.Ranked (sharingGraph P H) o' (t.sharing P) ∧
      ∀ {engine budget v a outcome left}, .query engine budget v (a, outcome) left ∈ l →
        a.isCompleted = true → ∀ op ∈ P.arithOp? v, op ∈ o' := by
  induction hl generalizing past o with
  | nil s => exact ⟨o, List.prefix_refl o, ho, by simp⟩
  | @query s u t l engine budget v reply hv hr _ ih =>
    obtain ⟨S, hrun, hend⟩ := (flat_query hP hA hL h (flat_history hP hA hL h) hv hr).run
    obtain ⟨o₁, hlater, hS, -⟩ := hrun.ranked (sharingGraph_lawful hP hA) (sharingGraph_acyclic hA)
      (sharingGraph_noCollision hH) (ho.restart budget) fun _ _ _ hm => by simp at hm
    obtain ⟨o₂, hpre, hranked, hrest⟩ := ih (.query engine budget v hv h hr)
      (fun hmem => hclear (List.mem_cons_of_mem _ hmem)) (hend ▸ hS.restart _)
    refine ⟨o₂, hlater.order.trans hpre, hranked, fun hx ha op hop => ?_⟩
    rcases List.mem_cons.mp hx with heq | hx
    · obtain ⟨rfl, rfl, rfl, rfl, -⟩ := Exchange.query.inj heq
      rw [Answer.reply_of_isCompleted ha] at hrun
      exact hpre.subset (hS.memo op (hrun.replies.2 rfl op (Option.mem_toList.mpr hop)))
    · exact hrest hx ha op hop
  | clear _ _ => exact absurd List.mem_cons_self hclear

/-- **What was answered once is answered for nothing from then on**, until the cache is cleared, if
hashes do not collide and the values of all `arith` operations are known: a query of a value that
any engine has completed before completes with an equal answer, even without budget, and leaves all
of its budget, whatever was queried in between. -/
theorem answered_again_free (hP : P.Verified) (hA : P.Acyclic) (hL : P.LoopFree)
    (hH : Arith.NoCollision P H) (hknown : P.AllKnown) (h : History (shipped P H mem) past s)
    {l : List (Exchange Op Blk APInt)} (hl : Session (shipped P H mem) s l t) (hclear : .clear ∉ l)
    {engine left : ℕ} {outcome : CacheOutcome}
    (hx : .query engine budget v (a, outcome) left ∈ l) (ha : a.isCompleted = true)
    (engine' budget' : ℕ) :
    ∃ a' outcome' t', (query (shipped P H mem) engine' budget' v t).outcome =
        .ok ((a', outcome'), t') ∧ a'.isCompleted = true ∧ a'.payload? = a.payload? ∧
      t'.engine.remaining = budget' := by
  obtain ⟨past', ht⟩ := hl.history h
  obtain ⟨past₁, u, u', hu, hv, hr⟩ := hl.query_of_mem h hx
  have hfirst := flat_query hP hA hL hu (flat_history hP hA hL hu) hv hr
  obtain ⟨a', outcome', t', hr', hq, -⟩ := query_queried hP hA hL ht engine' budget' hv
  obtain ⟨S, hrun, hend⟩ := hq.run
  obtain ⟨o, ho⟩ := ranked_history hP hA hL hH h
  obtain ⟨o', -, hranked, hmem⟩ := ranked_session hP hA hL hH h hl hclear ho
  have hfree : a'.reply = .done ∧ Sharing.Costless ((t.sharing P).restart budget') S := by
    refine hrun.askAll_costless fun op hop => ?_
    have hop' := Option.mem_toList.mp hop
    exact (hranked.restart budget').free (sharingGraph_lawful hP hA) (sharingGraph_noCollision hH)
      sharingGraph_closed hknown (flat_history hP hA hL ht).isArith (taskInside_arith v op hop)
      (hmem hx ha op hop') (by simp)
  have hcomp := Answer.isCompleted_of_reply hfree.1
  exact ⟨a', outcome', t', hr', hcomp, (hq.payload hcomp).trans (hfirst.payload ha).symm,
    (congrArg Sharing.State.remaining hend).trans hfree.2.remaining⟩

/-- The second sum is answered by engine 0 with a step, and by engine 1 without. -/
theorem answered_again_free_sumProgram : ∃ a outcome left t,
    Session sumSetup (State.init ()) [.query 0 1 (.result 3 0) (a, outcome) left] t ∧
    ∃ a' outcome' t', (query sumSetup 1 0 (.result 3 0) t).outcome = .ok ((a', outcome'), t') ∧
      a'.isCompleted = true ∧ a'.payload? = a.payload? ∧ t'.engine.remaining = 0 := by
  have hrun : (query sumSetup 0 1 (.result 3 0) (State.init ())).value?.map
      (fun r => r.1.payload?) =
      some (some ⟨indexWidth, 5⟩) := by decide +kernel
  obtain ⟨w, outcome, t, hr, -⟩ := query_known hrun
  have hl := Session.query 0 1 _ (by decide) hr (.nil t)
  exact ⟨_, _, _, t, hl, answered_again_free sumProgram_verified sumProgram_acyclic
    sumProgram_loopFree noCollision_sumProgram allKnown_sumProgram (.init ()) hl (by simp)
    List.mem_cons_self rfl 1 0⟩

end MlirInterpreter
