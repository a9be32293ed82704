import MlirInterpreter.Refinement.Engine

/-!
# Nested queries run as the machine

A nested query of an operation is the task to ask for it (`wp_flat_compute`), and of anything else
it is answered with its reference value and changes nothing the machine sees.  The induction is on
the bound for the nesting of calls; that the engine never reaches it is known from elsewhere.
-/

set_option autoImplicit false

namespace MlirInterpreter

open Recorded Arith

variable {Op Blk σ : Type} [DecidableEq Op] [DecidableEq Blk] [Fintype Op] {P : Program Op Blk}
  {H : HashFns Op Blk} {mem : Malloc} {s t u : State Op Blk σ APInt}
  {ask : Value Op Blk → EngineM Op Blk σ APInt (Answer APInt)} {op : Op} {A : Finset Op}

/-! ## Operations -/

/-- `op` was computed, but its answer is not memoized. -/
structure Computes (P : Program Op Blk) (H : HashFns Op Blk) (A : Finset Op)
    (s : State Op Blk σ APInt) (op : Op) (a : Answer APInt) (t : State Op Blk σ APInt) : Prop where
  flat : Flat P H t
  right : Right t (P.denote (.result op 0)) a
  heap : s.heap ⊆ t.heap
  queries : t.queries = s.queries
  run : Sharing.Run (sharingGraph P H) A (s.sharing P) (.ask op) a.reply
    (if a.isCompleted then (t.sharing P).memoize op else t.sharing P)

/-- What the code inside the cycle guard does. -/
theorem wp_flat_computeActive (hP : P.Verified) (hA : P.Acyclic) (harith : P.isArith op = true)
    {model : OpModel Op Blk σ APInt} (hm : (shippedModels P H).op op = some model)
    (ha : FlatAsks P H ask s.engine.active) (hs : Flat P H s)
    (hact : s.engine.active = Insert.insert op A)
    (hop : op ∉ A) (hmemo : op ∉ (s.sharing P).memo) {fuel : ℕ} :
    wp flatContract (computeActive (shipped P H mem) ask fuel op 0 model) s fun r t =>
      Computes P H A s op r.1 t ∧ Keeps s t := by
  refine wp_bind ?_
  rw [shippedModels_isCacheable hm, hP.arithPure op harith]
  refine Prog.wp_run_ret (wp_bind (wp_mono (wp_flat_lookup hP harith hm ha hs) fun r t ht => ?_))
  rcases r with cached | st
  · obtain ⟨hkey, ⟨S, hneeds, hscan⟩, hfound, hmissed⟩ := ht.completed cached rfl
    rw [hact] at hneeds hscan
    -- The operation is evaluated if no entry was found.
    have miss : cached.entry = none → wp flatContract
        (evaluateOp (shipped P H mem) ask fuel op 0 model (some cached) >>= fun a =>
          pure (a, CacheOutcome.miss)) t
        fun r u => Computes P H A s op r.1 u ∧ Keeps s u := by
      intro hnone
      have hmiss := hmissed hnone
      obtain ⟨key, entry, n⟩ := cached
      simp only at hnone
      subst hnone
      have hready : ∀ y ∈ (sharingGraph P H).needs op, y ∈ (t.sharing P).memo := fun y hy =>
        hscan.grows.memo (hneeds.replies.2 rfl y hy)
      refine wp_bind (wp_mono
        (wp_flat_evaluateOp hP hA harith hm hkey (ht.keeps.active ▸ ha) ht.flat hready hmiss)
        fun a u hu => wp_pure ?_)
      have hkeeps := ht.keeps.trans hu.keeps
      refine ⟨⟨hu.flat, hu.right, hkeeps.heap, hkeeps.queries, ?_⟩, hkeeps⟩
      by_cases h0 : (t.sharing P).remaining = 0
      · obtain ⟨rfl, hsharing⟩ := hu.exhausted h0
        rw [hsharing]
        exact .exhausted hmemo hop hneeds hscan h0
      · obtain ⟨hcomp, hsharing⟩ := hu.evaluated h0
        rw [if_pos hcomp, hsharing, Sharing.State.evaluate_memoize,
          Answer.reply_of_isCompleted hcomp]
        exact .evaluate hmemo hop hneeds hscan h0
    cases hentry : cached.entry with
    | none =>
      simp only [hentry]
      exact miss hentry
    | some e =>
      simp only [hentry]
      obtain ⟨entry, he, hshares⟩ := hfound e hentry
      obtain ⟨-, v, hresults, hv⟩ := ht.flat.cache.entries entry (List.mem_of_getElem? he)
      refine wp_bind (wp_readSlot (fun _ => trivial) fun entry' slot he' hslot => ?_)
      obtain rfl := Option.some.inj (he.symm.trans he')
      obtain rfl : some (.known v) = slot := by simpa [hresults] using hslot
      have hvalue : P.denote (.result op 0) = some v.payload := (hshares.denote_eq hP hA 0).trans hv
      have howned := ht.flat.handles.slots e entry 0 (.known v) v he hslot rfl
      refine wp_pure ⟨⟨ht.flat, .of_known howned.usable hvalue, ht.keeps.heap, ht.keeps.queries,
        ?_⟩, ht.keeps⟩
      rw [hentry] at hscan
      exact .hit hmemo hop hneeds hscan
  · refine wp_pure ⟨⟨ht.flat, .of_signal st, ht.keeps.heap, ht.keeps.queries, ?_⟩, ht.keeps⟩
    have hneeds := ht.signal st rfl
    rw [hact] at hneeds
    exact .blocked hmemo hop st.reply_ne_done hneeds

theorem wp_flat_computeOp (hP : P.Verified) (hA : P.Acyclic) (harith : P.isArith op = true)
    {model : OpModel Op Blk σ APInt} (hm : (shippedModels P H).op op = some model)
    (ha : ∀ A, FlatAsks P H ask A) (hs : Flat P H s) (hmemo : op ∉ (s.sharing P).memo) {fuel : ℕ} :
    wp flatContract (computeOp (shipped P H mem) ask fuel op 0 model) s fun r t =>
      Computes P H s.engine.active s op r.1 t ∧ t.engine.active = s.engine.active := by
  refine wp_bind (wp_read ?_)
  split
  · next hop => exact wp_pure ⟨⟨hs, .of_signal _, List.Subset.refl _, rfl, .cycle hmemo hop⟩, rfl⟩
  · next hop =>
    have hentered : Unseen s ((s.enter op).note (.entered op)) :=
      ⟨rfl, rfl, rfl, rfl, rfl, rfl, _, rfl, rfl⟩
    refine wp_bind (wp_unseen hs hentered fun hflat hsharing => ?_)
    refine wp_bind
      (wp_mono (wp_flat_computeActive (A := s.engine.active) hP hA harith hm (ha _) hflat rfl hop
      (hsharing ▸ hmemo)) ?_)
    rintro r t ⟨ht, hkeeps⟩
    have hleft : Unseen t ((t.leave op).note (.left op)) :=
      ⟨rfl, rfl, rfl, rfl, rfl, rfl, _, rfl, rfl⟩
    refine wp_bind (wp_unseen ht.flat hleft fun hflat' hsharing' => wp_pure ?_)
    refine ⟨⟨hflat', ⟨ht.right.payload, ht.right.usable⟩, ht.heap, ht.queries, ?_⟩, ?_⟩
    · rw [hsharing', ← hsharing]
      exact ht.run
    · change t.engine.active.erase op = s.engine.active
      rw [hkeeps.active]
      exact Finset.erase_insert hop

/-! ## Other values -/

/-- A value was answered that the machine does not know of. -/
structure Ignored (P : Program Op Blk) (H : HashFns Op Blk) (s : State Op Blk σ APInt)
    (v : Value Op Blk) (a : Answer APInt) (t : State Op Blk σ APInt) : Prop where
  flat : Flat P H t
  keeps : Keeps s t
  right : Right t (P.denote v) a
  sharing : t.sharing P = s.sharing P
  completed : a.isCompleted = true

theorem not_arith_of_no_model
    (hm : (shippedModels P H).op op = (none : Option (OpModel Op Blk σ APInt))) :
    P.isArith op = false := by
  simp only [shippedModels] at hm
  cases hk : P.kind op <;> simp_all [Program.isArith]

theorem wp_flat_constant (hA : P.Acyclic)
    (hm : (shippedModels P H).op op = (none : Option (OpModel Op Blk σ APInt))) (hs : Flat P H s)
    (i : ℕ) :
    wp flatContract (evaluateConstant (shipped P H mem) op) s fun r t =>
      Ignored P H s (.result op i) (.completed r.1) t := by
  have hvalue := reference_constant hA hm Env.empty i
  refine wp_shippedConstant (Q := fun value t => Ignored P H s (.result op i) (.completed value) t)
    (fun hnone => ?_) ?_
  · refine ⟨hs, .refl s, .of_unknown ?_, rfl, rfl⟩
    rw [Program.denote, hvalue]
    rcases hattr : P.constantAttr op with _ | a | id
    · rfl
    · exact absurd hattr (hnone a)
    · rfl
  · intro a hattr v t hr
    rw [hattr] at hvalue
    have hun : Unseen s t := ⟨rfl, rfl, rfl, rfl, rfl, rfl, _, rfl, rfl⟩
    exact ⟨trivial, hun.flat hs hr, ⟨rfl, List.subset_cons_self _ _, rfl⟩,
      .of_known ⟨List.mem_cons_self, Or.inr rfl⟩ hvalue, hun.sharing, rfl⟩

/-! ## Values -/

/-- `v` was computed, but its answer is not memoized. -/
structure Computed (P : Program Op Blk) (H : HashFns Op Blk) (s : State Op Blk σ APInt)
    (v : Value Op Blk) (a : Answer APInt) (t : State Op Blk σ APInt) : Prop where
  flat : Flat P H t
  keeps : Keeps s t
  right : Right t (P.denote v) a
  run : Sharing.Run (sharingGraph P H) s.engine.active (s.sharing P)
    (.askAll (P.arithOp? v).toList) a.reply
    (if a.isCompleted then memoizeValue P v (t.sharing P) else t.sharing P)

theorem Ignored.computed {v : Value Op Blk} {a : Answer APInt} (h : Ignored P H s v a t)
    (hv : P.arithOp? v = none) : Computed P H s v a t where
  flat := h.flat
  keeps := h.keeps
  right := h.right
  run := by
    rw [if_pos h.completed, Answer.reply_of_isCompleted h.completed, h.sharing, memoizeValue, hv]
    exact .nil

theorem wp_flat_computeWith (hP : P.Verified) (hA : P.Acyclic) (hL : P.LoopFree)
    (ha : ∀ A, FlatAsks P H ask A) (hs : Flat P H s) {v : Value Op Blk} (hv : P.Valid v)
    (hmemo : s.memo v = none) {fuel : ℕ} :
    wp flatContract (computeWith (shipped P H mem) ask fuel v) s fun r t =>
      Computed P H s v r.1 t := by
  cases v with
  | arg b i =>
    refine wp_bind (wp_read (wp_pure ?_))
    rw [hs.bindings]
    exact Ignored.computed ⟨hs, .refl s, .of_unknown rfl, rfl, rfl⟩ rfl
  | result op i =>
    refine wp_bind (wp_require (fun _ => trivial) fun _ => ?_)
    cases hm : (shipped P H mem : Setup Op Blk σ APInt).models.op op with
    | none =>
      have hm : (shippedModels P H).op op = none := hm
      have hother :
          P.arithOp? (.result op i) = none := by simp [Program.arithOp?, not_arith_of_no_model hm]
      exact wp_bind (wp_mono (wp_flat_constant hA hm hs i) fun r t ht =>
        wp_pure (ht.computed hother))
    | some model =>
      have hm : (shippedModels P H).op op = some model := hm
      rcases shippedModels_op hm with ⟨harith, -⟩ | ⟨u, hkind, -⟩
      · obtain rfl : i = 0 :=
          (Value.result.inj (hP.eq_result hv (Program.arithOp?_result harith i))).2
        have hnew : op ∉ (s.sharing P).memo := by
          rintro ⟨-, a, h⟩
          rw [hmemo] at h
          cases h
        refine wp_mono (wp_flat_computeOp hP hA harith hm ha hs hnew) ?_
        rintro r t ⟨ht, hactive⟩
        refine ⟨ht.flat, ⟨hactive, ht.heap, ht.queries⟩, ht.right, ?_⟩
        rw [memoizeValue, Program.arithOp?_result harith]
        exact ht.run.askAll_singleton
      · have hloop := hL op
        simp [Program.isLoop, hkind] at hloop

/-- A nested query runs as the machine if what it computes does. -/
theorem wp_flat_evaluateValue (hP : P.Verified)
    {compute : Value Op Blk → EngineM Op Blk σ APInt (Answer APInt × CacheOutcome)}
    {v : Value Op Blk} (hv : P.Valid v) (hs : Flat P H s)
    (hc : s.memo v = none → wp flatContract (compute v) s fun r t => Computed P H s v r.1 t) :
    wp flatContract (evaluate (shipped P H mem) compute v) s fun a t => Answered P H s v a t := by
  refine wp_bind (wp_read ?_)
  cases hmemo : s.engine.queryAnswers.lookup v with
  | some a =>
    have hmemo : s.memo v = some a := hmemo
    refine wp_pure ⟨hs, .refl s, hs.memo_right hmemo, ?_⟩
    rw [Answer.reply_of_isCompleted (hs.memo v a hmemo).1]
    cases hop : P.arithOp? v with
    | none => exact .nil
    | some op =>
      obtain rfl := hP.eq_result hv hop
      exact Sharing.Run.askAll_singleton (.memo ⟨(Program.arithOp?_eq_some hop).1, a, hmemo⟩)
  | none =>
    refine wp_bind (wp_mono (hc hmemo) fun r t ht => ?_)
    obtain ⟨a, outcome⟩ := r
    have hrun := ht.run
    simp only
    cases hcomp : a.isCompleted with
    | false =>
      rw [if_neg (by simp [hcomp])] at hrun
      exact wp_bind (wp_pure (wp_pure ⟨ht.flat, ht.keeps, ht.right, hrun⟩))
    | true =>
      rw [if_pos hcomp] at hrun
      refine wp_bind (wp_mono (wp_flat_memoize hP ht.flat hv hcomp ht.right) ?_)
      rintro _ u ⟨hu, hkeeps, hsharing, -⟩
      exact wp_pure ⟨hu, ht.keeps.trans hkeeps, ht.right.keeps hkeeps, hsharing ▸ hrun⟩

/-- **Nested queries run as the machine.** -/
theorem wp_flat_compute (hP : P.Verified) (hA : P.Acyclic) (hL : P.LoopFree) {fuel depth : ℕ}
    {v : Value Op Blk} (hv : P.Valid v) (hs : Flat P H s) (hmemo : s.memo v = none) :
    wp flatContract (compute (shipped P H mem) fuel depth v) s fun r t =>
      Computed P H s v r.1 t := by
  induction depth generalizing v s with
  | zero => exact wp_stop trivial
  | succ depth ih =>
    exact wp_flat_computeWith hP hA hL
      (fun A v s hv hs _ => wp_flat_evaluateValue hP hv hs fun hmemo => ih hv hs hmemo) hs hv hmemo

end MlirInterpreter
