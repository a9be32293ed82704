import MlirInterpreter.Refinement.Queries
import MlirInterpreter.Sharing.SourceOrder

/-!
# In source order, one step per value is enough

A straight-line program computes integers from earlier ones.  If its results are queried in source
order, each query needs one step at most: everything it asks for is in the cache, and is found for
nothing (`source_order_one_step`).
-/

set_option autoImplicit false

namespace MlirInterpreter

open Recorded Arith

variable {Op Blk σ : Type} [DecidableEq Op]

/-! ## Straight-line programs -/

/-- The position of an operation of a block. -/
def Program.position (P : Program Op Blk) (body : Blk) (op : Op) : ℕ := (P.ops body).idxOf op

/-- A straight-line program: the results of the operations of its block are integer constants, sums,
differences and products, of results of earlier operations.  The operations around the block use
nothing. -/
structure Program.StraightLine (P : Program Op Blk) (body : Blk) : Prop where
  kinds : ∀ op ∈ P.ops body, (∃ id a, P.kind op = .constant id (.integer a)) ∨ P.isArith op = true ∨
    P.isLoop op = false ∧ P.numResults op = 0
  operands : ∀ op ∈ P.ops body, ∀ v ∈ P.operands op, ∃ o i, v = .result o i ∧ o ∈ P.ops body ∧
    P.position body o < P.position body op
  others : ∀ op, op ∉ P.ops body → P.operands op = []

variable {P : Program Op Blk} {body : Blk} {op : Op} {k : ℕ}

theorem Program.position_of_getElem? (h : (P.ops body)[k]? = some op) : P.position body op = k := by
  obtain ⟨hk, rfl⟩ := List.getElem?_eq_some_iff.mp h
  exact (P.ops_nodup body).idxOf_getElem k hk

namespace Program.StraightLine

theorem loopFree (h : P.StraightLine body) (hP : P.Verified) : P.LoopFree := by
  intro op
  by_cases hop : op ∈ P.ops body
  · rcases h.kinds op hop with ⟨id, a, hk⟩ | harith | ⟨hloop, -⟩
    · simp [isLoop, hk]
    · cases hk : P.kind op <;> simp_all [isArith, isLoop]
    · exact hloop
  · by_contra hloop
    obtain ⟨lb, ub, step, inits, b, yields, t, hshape⟩ := hP.loop op (by simpa using hloop)
    simpa [h.others op hop] using hshape.operands

theorem mem_of_arith (h : P.StraightLine body) (hP : P.Verified) (harith : P.isArith op = true) :
    op ∈ P.ops body := by
  by_contra hop
  obtain ⟨l, r, t, hshape⟩ := hP.arith op harith
  simpa [h.others op hop] using hshape.operands

/-- What an operation demands is an earlier one. -/
theorem position_lt (h : P.StraightLine body) (hP : P.Verified) {o : Op} (hd : P.Demands op o) :
    P.position body o < P.position body op := by
  obtain ⟨i, hi⟩ := hd
  rw [dependencies, h.loopFree hP op, if_neg (by simp), List.append_nil] at hi
  by_cases hop : op ∈ P.ops body
  · obtain ⟨o', i', heq, -, hlt⟩ := h.operands op hop _ hi
    rw [(Value.result.inj heq).1]
    exact hlt
  · rw [h.others op hop] at hi
    cases hi

theorem acyclic (h : P.StraightLine body) (hP : P.Verified) : P.Acyclic :=
  .of_rank (P.position body) fun _ _ hv _ i ho => h.position_lt hP ⟨i, ho ▸ hv⟩

variable [DecidableEq Blk]

/-- Every result is known. -/
theorem known [Fintype Op] (h : P.StraightLine body) (hP : P.Verified) {i : ℕ}
    (hop : op ∈ P.ops body) (hv : P.Valid (.result op i)) :
    ∃ x, P.denote (.result op i) = some x := by
  have hA := h.acyclic hP
  induction hn : P.position body op using Nat.strong_induction_on generalizing op i with
  | _ n ih =>
    subst hn
    rcases h.kinds op hop with ⟨id, a, hk⟩ | harith | ⟨-, hnone⟩
    · exact ⟨a, by rw [Program.denote, reference_result hA, Reference.opResult, hk]⟩
    · obtain ⟨l, r, t, hshape⟩ := hP.arith op harith
      have operand : ∀ v ∈ P.operands op, ∃ x, P.denote v = some x := by
        intro v hv
        obtain ⟨o, j, rfl, ho, hlt⟩ := h.operands op hop v hv
        exact ih _ hlt ho (hP.valid op _ hv) rfl
      obtain ⟨x, hx⟩ := operand l (by simp [hshape.operands])
      obtain ⟨y, hy⟩ := operand r (by simp [hshape.operands])
      rw [denote_arith hA harith hshape.operands, hx, hy]
      exact ofArith_known harith x y
    · have hlt : i < P.numResults op := hv
      omega

/-- The `arith` operations of the block are in order. -/
theorem ordered [Fintype Op] (h : P.StraightLine body) (hP : P.Verified) {H : HashFns Op Blk} :
    Sharing.Ordered (sharingGraph P H) (P.position body) {op | P.isArith op = true} where
  needs op _ o ho := by
    obtain ⟨harith, hd⟩ := demands_of_needs ho
    exact ⟨harith, h.position_lt hP hd⟩
  known op harith := by
    have harith : P.isArith op = true := harith
    obtain ⟨x, hx⟩ := h.known hP (i := 0) (h.mem_of_arith hP harith) (by
      change 0 < P.numResults op
      rw [hP.numResults_arith harith]
      exact Nat.one_pos)
    exact Option.isSome_iff_exists.mpr ⟨x, hx⟩
  injective op hop _ _ heq := (List.idxOf_inj (h.mem_of_arith hP hop)).mp heq

end Program.StraightLine

/-! ## Queries in source order -/

variable [Fintype Op] {H : HashFns Op Blk} {mem : Malloc} {past : List (State Op Blk σ APInt)}
  {s t : State Op Blk σ APInt} [DecidableEq Blk]

/-- From an empty cache on, the results of the operations before position `k` were queried in source
order with budget 1, by any engines. -/
inductive InSourceOrder (E : Setup Op Blk σ APInt) (body : Blk) :
    (k : ℕ) → List (State Op Blk σ APInt) → State Op Blk σ APInt → Prop
  | start {past : List (State Op Blk σ APInt)} {s : State Op Blk σ APInt} (h : History E past s)
    (hempty : s.cache.arena = []) : InSourceOrder E body 0 past s
  | skip {k : ℕ} {past : List (State Op Blk σ APInt)} {s : State Op Blk σ APInt} {op : Op}
    (h : InSourceOrder E body k past s) (hop : (E.program.ops body)[k]? = some op)
    (hnone : E.program.numResults op = 0) : InSourceOrder E body (k + 1) past s
  | query {k : ℕ} {past : List (State Op Blk σ APInt)} {s s' : State Op Blk σ APInt}
    {op : Op} (engine : ℕ)
    {r : Answer APInt × CacheOutcome} (h : InSourceOrder E body k past s)
    (hop : (E.program.ops body)[k]? = some op) (hv : E.program.Valid (.result op 0))
    (hr : (query E engine 1 (.result op 0) s).outcome = .ok (r, s')) :
    InSourceOrder E body (k + 1) (past ++ (query E engine 1 (.result op 0) s).visited) s'

theorem InSourceOrder.history {E : Setup Op Blk σ APInt} (h : InSourceOrder E body k past s) :
    History E past s := by
  induction h with
  | start h _ => exact h
  | skip _ _ _ ih => exact ih
  | query engine _ _ hv hr ih => exact .query engine 1 _ hv ih hr

/-- The machine's runs in source order. -/
abbrev Arith.InOrder (P : Program Op Blk) (H : HashFns Op Blk) (body : Blk) (k : ℕ)
    (S : Sharing.State Op) : Prop :=
  Sharing.InOrder (sharingGraph P H) (P.position body) {op | P.isArith op = true} k S

/-- An operation that is no `arith` operation is passed over. -/
theorem Arith.InOrder.pass {S : Sharing.State Op} (hS : P.StraightLine body) (hP : P.Verified)
    (hs : Arith.InOrder P H body k S) (hop : (P.ops body)[k]? = some op)
    (harith : P.isArith op = false) :
    Arith.InOrder P H body (k + 1) S := by
  refine hs.skip fun o ho heq => ?_
  rw [← Program.position_of_getElem? hop] at heq
  obtain rfl := (List.idxOf_inj (hS.mem_of_arith hP ho)).mp heq
  rw [Set.mem_ofPred_eq, harith] at ho
  cases ho

/-- **The next query takes the step for its operation, if any.** -/
theorem Queried.next {a : Answer APInt} (hS : P.StraightLine body) (hP : P.Verified)
    (hop : (P.ops body)[k]? = some op) (hs : Arith.InOrder P H body k (s.sharing P))
    (hq : Queried P H s 1 (.result op 0) a t) :
    a.isCompleted = true ∧ Arith.InOrder P H body (k + 1) (t.sharing P) ∧
      (evaluatedOps t.log = evaluatedOps s.log ∨ evaluatedOps t.log = op :: evaluatedOps s.log) ∧
      t.engine.remaining + (evaluatedOps t.log).length = 1 + (evaluatedOps s.log).length := by
  obtain ⟨S, hrun, hend⟩ := hq.run
  have hlog : evaluatedOps t.log = S.evaluated := congrArg Sharing.State.evaluated hend
  have hrem : t.engine.remaining = S.remaining := congrArg Sharing.State.remaining hend
  have hs' : Arith.InOrder P H body k ((s.sharing P).restart 1) := hs.mono rfl
  have hpaid := hrun.grows.paid
  rw [hlog, hrem, hend]
  cases harith : P.isArith op with
  | true =>
    rw [Program.arithOp?_result harith] at hrun
    obtain rfl := Program.position_of_getElem? hop
    obtain ⟨hdone, hin, hevaluated⟩ :=
      hs'.next (sharingGraph_lawful hP (hS.acyclic hP)) (hS.ordered hP) harith
      (Set.notMem_empty op) Nat.one_ne_zero hrun.of_askAll_singleton
    exact ⟨Answer.isCompleted_of_reply hdone, hin.mono rfl, hevaluated, hpaid⟩
  | false =>
    have hother : P.arithOp? (.result op 0) = none := by simp [Program.arithOp?, harith]
    rw [hother] at hrun
    obtain ⟨hdone, rfl⟩ := hrun.askAll_memo (by simp)
    exact ⟨Answer.isCompleted_of_reply hdone, (hs'.pass hS hP hop harith).mono rfl,
      Or.inl rfl, hpaid⟩

theorem InSourceOrder.inOrder (hS : P.StraightLine body) (hP : P.Verified)
    (h : InSourceOrder (shipped P H mem) body k past s) :
    Arith.InOrder P H body k (s.sharing P) := by
  induction h with
  | start _ hempty =>
    have hentries : ∀ {s : State Op Blk σ APInt}, s.cache.arena = [] →
        (s.sharing P).entries = [] := fun h =>
      congrArg (List.map CacheEntry.op) h
    exact ⟨by simp [hentries hempty], by simp [hentries hempty], by simp⟩
  | @skip _ _ _ op _ hop hnone ih =>
    refine ih.pass hS hP hop ?_
    by_contra harith
    have hone := hP.numResults_arith (by simpa using harith)
    have hnone : P.numResults op = 0 := hnone
    omega
  | query engine h hop hv hr ih =>
    exact (Queried.next hS hP hop ih (flat_query hP (hS.acyclic hP) (hS.loopFree hP) h.history
      (flat_history hP (hS.acyclic hP) (hS.loopFree hP) h.history) hv hr)).2.1

/-- **In source order, one step per value is enough.**  After the results before it were queried in
source order with budget 1, by any engines, from an empty cache on, a query of the next result with
budget 1 completes with its reference value.  It evaluates nothing but the operation it asks for,
and is charged for that alone: whatever the lookup of an operand runs into is free. -/
theorem source_order_one_step (hP : P.Verified) (hS : P.StraightLine body)
    (h : InSourceOrder (shipped P H mem) body k past s) (hop : (P.ops body)[k]? = some op)
    (hv : P.Valid (.result op 0)) (engine : ℕ) :
    ∃ v outcome s' did, (query (shipped P H mem) engine 1 (.result op 0) s).outcome =
      .ok ((.known v, outcome), s') ∧
      P.denote (.result op 0) = some v.payload ∧ s'.log = did ++ s.log ∧
      (evaluatedOps did = [] ∨ evaluatedOps did = [op]) ∧
        charges did = (evaluatedOps did).length := by
  obtain ⟨a, outcome, s', hr, hq, hok⟩ :=
    query_queried hP (hS.acyclic hP) (hS.loopFree hP) h.history engine 1 hv
  obtain ⟨hcomp, -, hevaluated, hpaid⟩ := hq.next hS hP hop (h.inOrder hS hP)
  obtain ⟨x, hx⟩ := hS.known hP (List.mem_of_getElem? hop) hv
  have hpayload := (hq.payload hcomp).trans hx
  obtain ⟨did, hlog⟩ := query_log hr
  have happend : evaluatedOps s'.log = evaluatedOps did ++ evaluatedOps s.log := by
    rw [hlog, evaluatedOps, List.filterMap_append]
    rfl
  have hcharges := hok.charges
  rw [hlog, show charges (did ++ s.log) = charges did +
    charges s.log from List.countP_append] at hcharges
  rw [happend, List.length_append] at hpaid
  rcases a with (_ | v) | st
  · cases hpayload
  · refine ⟨v, outcome, s', did, hr, hx.trans hpayload.symm, hlog, ?_, by omega⟩
    rw [happend] at hevaluated
    exact hevaluated.imp (List.append_left_eq_self.mp ·) fun h => List.append_cancel_right h
  · cases hcomp

theorem straightLine_sumProgram : sumProgram.StraightLine 0 where
  kinds op hop := by
    have hcases : op = 0 ∨ op = 1 ∨ sumProgram.isArith op = true := by revert op; decide
    rcases hcases with rfl | rfl | harith
    · exact Or.inl ⟨_, _, rfl⟩
    · exact Or.inl ⟨_, _, rfl⟩
    · exact Or.inr (Or.inl harith)
  operands op _ v hv := by
    have hearlier : ∀ op, ∀ v ∈ sumProgram.operands op, ∃ o, v = .result o 0 ∧
        o ∈ sumProgram.ops 0 ∧
        sumProgram.position 0 o < sumProgram.position 0 op := by decide
    obtain ⟨o, ho⟩ := hearlier op v hv
    exact ⟨o, 0, ho⟩
  others := by decide

/-- The four results of `sumProgram`, queried by two engines in turn. -/
theorem source_order_one_step_sumProgram :
    ∃ past s v outcome s' did, InSourceOrder sumSetup 0 3 past s ∧
      (query sumSetup 1 1 (.result 3 0) s).outcome = .ok ((.known v, outcome), s') ∧
      sumProgram.denote (.result 3 0) = some v.payload ∧ s'.log = did ++ s.log ∧
      (evaluatedOps did = [] ∨ evaluatedOps did = [3]) ∧
        charges did = (evaluatedOps did).length := by
  have hops : ∀ op : Fin 4, (sumProgram.ops 0)[op.val]? = some op.castSucc := by decide
  have hvalid : ∀ op : Fin 4, sumProgram.Valid (.result op.castSucc 0) := by decide
  have step := fun {past s} (op : Fin 4) (h : InSourceOrder sumSetup 0 op past s) =>
    source_order_one_step sumProgram_verified straightLine_sumProgram h (hops op) (hvalid op)
  have h₀ : InSourceOrder sumSetup 0 0 _ _ := .start (.init ()) rfl
  obtain ⟨_, _, s₁, _, hr₀, -⟩ := step 0 h₀ 0
  have h₁ : InSourceOrder sumSetup 0 1 _ s₁ := .query 0 h₀ (hops 0) (hvalid 0) hr₀
  obtain ⟨_, _, s₂, _, hr₁, -⟩ := step 1 h₁ 1
  have h₂ : InSourceOrder sumSetup 0 2 _ s₂ := .query 1 h₁ (hops 1) (hvalid 1) hr₁
  obtain ⟨_, _, s₃, _, hr₂, -⟩ := step 2 h₂ 0
  have h₃ : InSourceOrder sumSetup 0 3 _ s₃ := .query 0 h₂ (hops 2) (hvalid 2) hr₂
  obtain ⟨v, outcome, s', did, hr₃, hrest⟩ := step 3 h₃ 1
  exact ⟨_, s₃, v, outcome, s', did, h₃, hr₃, hrest⟩

end MlirInterpreter
