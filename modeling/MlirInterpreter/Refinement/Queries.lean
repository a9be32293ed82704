import MlirInterpreter.Refinement.Compute

/-!
# Queries run as the machine

A query is a run of the machine from an empty memo, over the entries of the cache (`flat_query`),
and it ends.  After any history the cache belongs to the machine (`flat_history`).
-/

set_option autoImplicit false

namespace MlirInterpreter

open Recorded Arith

variable {Op Blk σ : Type} [DecidableEq Op] [DecidableEq Blk] [Fintype Op] {P : Program Op Blk}
  {H : HashFns Op Blk} {mem : Malloc} {s t u : State Op Blk σ APInt} {v : Value Op Blk}
    {engine budget : ℕ}

/-- A query of `v` was answered with `a`, as the machine does it. -/
structure Queried (P : Program Op Blk) (H : HashFns Op Blk) (s : State Op Blk σ APInt) (budget : ℕ)
    (v : Value Op Blk) (a : Answer APInt) (t : State Op Blk σ APInt) : Prop where
  cache : FlatCache P H t
  payload : a.isCompleted = true → a.payload? = P.denote v
  run : ∃ S, Sharing.Run (sharingGraph P H) ∅ ((s.sharing P).restart budget)
    (.askAll (P.arithOp? v).toList) a.reply S ∧
    t.sharing P = S.restart S.remaining

omit [DecidableEq Op] [DecidableEq Blk] [Fintype Op] in
theorem memoizeValue_restart (v : Value Op Blk) (S : Sharing.State Op) (n : ℕ) :
    (memoizeValue P v S).restart n = S.restart n := by
  rw [memoizeValue]
  cases P.arithOp? v <;> rfl

omit [DecidableEq Op] [DecidableEq Blk] [Fintype Op] in
theorem memoizeValue_remaining (v : Value Op Blk) (S : Sharing.State Op) :
    (memoizeValue P v S).remaining = S.remaining := by
  rw [memoizeValue]
  cases P.arithOp? v <;> rfl

omit [Fintype Op] in
/-- Without a memo. -/
theorem State.sharing_eq_restart (h : ∀ v, s.memo v = none) :
    s.sharing P = (s.sharing P).restart s.engine.remaining := by
  have hmemo : (s.sharing P).memo = ∅ := Set.eq_empty_of_forall_notMem fun op hop => by
    obtain ⟨-, a, ha⟩ := hop
    rw [h] at ha
    cases ha
  exact congrArg (fun m => ({ s.sharing P with memo := m } : Sharing.State Op)) hmemo

/-- A query starts where its engine rests. -/
theorem AtRest.flat_beginQuery (h : AtRest P s) (hs : FlatCache P H s)
    (hr : HandleGuar ((s.beginQuery engine budget).note (.queryStarted engine budget v))) :
    Flat P H ((s.beginQuery engine budget).note (.queryStarted engine budget v)) where
  handles := hr.store
  bindings := h.bindings
  freezes := h.freezes
  memo w a hw := absurd ((h.memo w).symm.trans hw) (by simp)
  cache := hs.of_eq rfl rfl (knownOps_unseen rfl _) (appendedOps_unseen rfl _)

theorem wp_flat_queried (hP : P.Verified) (hA : P.Acyclic) (hL : P.LoopFree) (h : AtRest P s)
    (hs : FlatCache P H s)
    (hv : P.Valid v) :
    wp flatContract (query (shipped P H mem) engine budget v) s fun r t =>
      Queried P H s budget v r.1 t := by
  refine wp_query (fun _ => trivial) fun hr => ⟨trivial, ?_⟩
  have hflat := h.flat_beginQuery hs hr
  have hsharing : ((s.beginQuery engine budget).note (.queryStarted engine budget v)).sharing P =
      (s.sharing P).restart budget := State.sharing_eq_restart h.memo
  refine wp_mono (wp_flat_compute hP hA hL hv hflat (h.memo v)) ?_
  rintro ⟨a, outcome⟩ u hu
  have hrun := hu.run
  rw [hsharing, show ((s.beginQuery engine budget).note
    (.queryStarted engine budget v)).engine.active = ∅ from
    h.active] at hrun
  -- What is handed out is not seen by the machine.
  have finish : ∀ (t : State Op Blk σ APInt) (b : Answer APInt), t.sharing P = u.sharing P →
      FlatCache P H t →
      b.reply = a.reply → b.payload? = a.payload? → b.isCompleted = a.isCompleted →
      Queried P H s budget v b (t.endQuery.note (.queryEnded engine v b)) := by
    intro t b ht hc hreply hpayload hcomp
    refine ⟨hc.of_eq rfl rfl (knownOps_unseen rfl _) (appendedOps_unseen rfl _), ?_,
      _, hreply ▸ hrun, ?_⟩
    · rw [hcomp, hpayload]
      exact hu.right.payload
    · have hended : (t.endQuery.note (.queryEnded engine v b)).sharing P = (t.sharing P).restart
        (t.sharing P).remaining :=
        State.sharing_eq_restart fun w => by simp [State.memo, State.note, State.endQuery]
      rw [hended, ht]
      split
      · rw [memoizeValue_restart, memoizeValue_remaining]
      · rfl
  refine wp_handOut (fun _ =>
    ⟨fun _ => trivial, fun _ _ => ⟨trivial, finish u a rfl hu.flat.cache rfl rfl rfl⟩⟩) ?_
  rintro w rfl r t hr'
  have hout : Unseen u t := ⟨rfl, rfl, rfl, rfl, rfl, rfl, _, rfl, rfl⟩
  have hcopy : r.value.payload = w.payload := (hr'.handedOut w r.value rfl).2.2
  refine ⟨trivial, fun _ => trivial, fun _ _ => ⟨trivial, ?_⟩⟩
  exact finish t (.known r.value) hout.sharing (hout.flatCache hu.flat.cache)
    rfl (congrArg some hcopy) rfl

/-! ## Histories -/

theorem FlatCache.of_empty (ha : s.cache.arena = []) (he : ∀ key, s.bucket key = [])
    (hl : sinceCleared s.log = []) :
    FlatCache P H s where
  entries := by simp [ha]
  buckets key := by simp [ha, he]
  known := by simp [knownOps, ha, hl]
  appended := by simp [appendedOps, ha, hl]

theorem FlatCache.init (w : σ) : FlatCache P H (State.init w : State Op Blk σ APInt) :=
  .of_empty rfl (fun _ => by simp [State.bucket, EvalCache.bucket, State.init, EvalCache.empty]) rfl

theorem FlatCache.clear (s : State Op Blk σ APInt) : FlatCache P H (s.clear.note .cleared) :=
  .of_empty rfl (fun _ => by
    simp [State.bucket, EvalCache.bucket, State.note, State.clear, EvalCache.empty]) rfl

section Histories

variable {past : List (State Op Blk σ APInt)}

/-- What the runs of a query keep. -/
theorem flat_query (hP : P.Verified) (hA : P.Acyclic) (hL : P.LoopFree)
    (h : History (shipped P H mem) past s) (hs : FlatCache P H s) (hv : P.Valid v)
    {r : Answer APInt × CacheOutcome}
    (hr : (query (shipped P H mem) engine budget v s).outcome = .ok (r, t)) :
    Queried P H s budget v r.1 t :=
  (wp_flat_queried hP hA hL (evalTheory_history hP h).1 hs hv fun u hu =>
    (handleTheory_history (shippedModels_confined P H) h engine budget v).2 u
    (List.mem_append_right _ hu)).2.1 r t hr

/-- After any history the cache belongs to the machine. -/
theorem flat_history (hP : P.Verified) (hA : P.Acyclic) (hL : P.LoopFree)
    (h : History (shipped P H mem) past s) :
    FlatCache P H s := by
  induction h with
  | init w => exact .init w
  | query engine budget v hv h hr ih => exact (flat_query hP hA hL h ih hv hr).cache
  | clear h hr ih =>
    simp only [clearCache, record, Rec.write, Except.ok.injEq, Prod.mk.injEq, true_and] at hr
    subst hr
    exact .clear _

/-- **A query is a run of the machine**, after any history, and it ends. -/
theorem query_queried (hP : P.Verified) (hA : P.Acyclic) (hL : P.LoopFree)
    (h : History (shipped P H mem) past s) (engine budget : ℕ) (hv : P.Valid v) :
    ∃ a outcome s', (query (shipped P H mem) engine budget v s).outcome = .ok ((a, outcome), s') ∧
      Queried P H s budget v a s' ∧ QueryOk P False budget v a s s' := by
  obtain ⟨-, a, outcome, s', hr, hok⟩ := query_ends False hP h engine budget hv (by simp)
  exact ⟨a, outcome, s', hr, flat_query hP hA hL h (flat_history hP hA hL h) hv hr, hok⟩

end Histories

end MlirInterpreter
