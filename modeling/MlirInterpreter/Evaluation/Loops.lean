import MlirInterpreter.Evaluation.Methods

/-!
# Loops

The specification of `ForOpEval::evaluate`.  `wp_withBinding` is the rule for a scope with a block
binding: inside, the environment is extended by the arguments; at its end everything is as it was,
but for one more unit of work, the iteration.  `wp_iteration` adds the step that was charged for it.

`wp_iterate` runs the engine's loop along the reference loop.  Both take the same control path,
because the engine only starts a loop on known control and initial values, and the carried values of
the engine agree with those of the reference loop.
-/

set_option autoImplicit false

namespace MlirInterpreter

open Recorded

variable {Op Blk σ : Type} {P : Program Op Blk}
  {H : HashFns Op Blk} {mem : Malloc} {exact : Prop}
  {ask : Value Op Blk → EngineM Op Blk σ APInt (Answer APInt)} {s t : State Op Blk σ APInt}

/-! ## Types and environments of an iteration -/

theorem HasType.of_le {t : Option Ty} {a b : Option APInt} (h : HasType t b) (hle : Known.le a b) :
    HasType t a :=
  fun x hx => h x (hle x hx)

theorem ListHasType.of_le {ts : List Ty} {as bs : List (Option APInt)} (h : ListHasType ts bs)
    (hle : List.Forall₂ Known.le as bs) : ListHasType ts as := by
  intro i a ha
  have hlt := (List.getElem?_eq_some_iff.mp ha).1
  have hlt' : i < bs.length := hle.length_eq ▸ hlt
  have hrel := (List.forall₂_iff_get.mp hle).2 i hlt hlt'
  have hget : as[i] = a := by
    rw [List.getElem?_eq_getElem hlt] at ha
    exact Option.some.inj ha
  simp only [List.get_eq_getElem, hget] at hrel
  exact (h i _ (List.getElem?_eq_getElem hlt')).of_le hrel

theorem Env.le_refl {Blk : Type} (env : Env Blk) : env.le env := fun _ _ _ h => h

/-- Carried values that agree with those of the reference loop. -/
def Carried (P : Program Op Blk) (exact : Prop) (s : State Op Blk σ APInt) (op : Op)
    (carried : List (Answer APInt)) (values : List (Option APInt)) : Prop :=
  List.Forall₂ (fun a r => a.isCompleted = true ∧ AnswerOk P exact s r (Below P op) a) carried
    values

section Carried

variable {op : Op} {carried : List (Answer APInt)} {values : List (Option APInt)}

theorem Carried.stable (h : Carried P exact s op carried values)
    (ha : t.engine.active = s.engine.active) (hc : Continues s t) :
    Carried P exact t op carried values :=
  h.imp fun _ _ hx => ⟨hx.1, hx.2.stable ha hc⟩

theorem Carried.le (h : Carried P exact s op carried values) (hA : P.Acyclic) :
    List.Forall₂ Known.le (carried.map Answer.payload?) values := by
  rw [List.forall₂_map_left_iff]
  exact h.imp fun _ _ hx => (hx.2.agrees hA).payload_le

theorem Carried.eq (h : Carried P exact s op carried values) (hA : P.Acyclic) (he : exact) :
    carried.map Answer.payload? = values := by
  rw [← List.forall₂_eq_eq_eq, List.forall₂_map_left_iff]
  exact h.imp fun _ _ hx => (hx.2.agrees hA).payload_eq he hx.1

/-- Answers that agree with the values of a list agree with other values of it. -/
theorem Carried.imp {vs : List (Value Op Blk)} {f g : Value Op Blk → Option APInt}
    (h : Carried P exact s op carried (vs.map f))
    (hfg : P.Acyclic → ∀ v ∈ vs, ∀ a, Agrees exact a (f v) → Agrees exact a (g v)) :
    Carried P exact s op carried (vs.map g) := by
  induction vs generalizing carried with
  | nil => exact h
  | cons v vs ih =>
    cases h with
    | cons hv hvs =>
      refine .cons ⟨hv.1, hv.2.usable, fun hA => ?_, hv.2.signal⟩ (ih hvs fun hA u hu => ?_)
      · exact hfg hA v (by simp) _ (hv.2.agrees hA)
      · exact hfg hA u (by simp [hu])

end Carried

/-! ## Lists of values -/

namespace SCF

variable {op : Op}

section

variable [DecidableEq Op] [DecidableEq Blk] [Fintype Op]

/-- Values that are all known, as the engine answers. -/
def AllKnown (P : Program Op Blk) (s : State Op Blk σ APInt) (env : Env Blk)
    (vs : List (Value Op Blk)) (l : List (EvalValue APInt)) : Prop :=
  List.Forall₂ (fun v w => Usable s w ∧ (P.Acyclic → reference P env v = some w.payload)) vs l

theorem wp_queryKnown (h : Running P exact ask s) (vs : List (Value Op Blk))
    (hvs : ∀ v ∈ vs, P.Valid v ∧ v ∈ P.dependencies op) :
    wp (evalTheory P exact).contract (runScope (shipped P H mem) ask (queryKnown vs)) s fun r t =>
      EvalMoves P exact s t ∧ match r with
        | .error (.signal st) => SignalOk P t (Below P op) st
        | .error .unknown => P.Acyclic → exact → ∃ v ∈ vs, reference P s.engine.env v = none
        | .ok l => AllKnown P t s.engine.env vs l := by
  induction vs generalizing s with
  | nil => exact Prog.wp_run_ret ⟨.refl h.inv, .nil⟩
  | cons v vs ih =>
    obtain ⟨hv, hdep⟩ := hvs v (by simp)
    rw [queryKnown]
    refine wp_scope_query h hv fun a t ht ha => ?_
    rcases a with (_ | w) | st
    · exact Prog.wp_run_ret ⟨ht, fun hA he => ⟨v, by simp, ha.unknown_eq hA he⟩⟩
    · refine Prog.wp_run_bind (wp_mono (ih (h.moves ht) fun u hu => hvs u (by simp [hu])) ?_)
      rintro r u ⟨hu, hr⟩
      have htu := EvalMoves.trans ht hu
      rw [EvalMoves.env ht] at hr
      rcases r with (st | _) | l
      · exact Prog.wp_run_ret ⟨htu, hr⟩
      · exact Prog.wp_run_ret ⟨htu, fun hA he =>
          (hr hA he).imp fun u hu => ⟨by simp [hu.1], hu.2⟩⟩
      · exact Prog.wp_run_ret ⟨htu, .cons ⟨(ha.usable w rfl).moves hu, ha.known_eq⟩ hr⟩
    · exact Prog.wp_run_ret ⟨ht, ha.signal_below hdep⟩

theorem wp_queryYields (h : Running P exact ask s) {vs : List (Value Op Blk)}
    (hvs : ∀ v ∈ vs, P.Valid v ∧ v ∈ P.dependencies op) :
    wp (evalTheory P exact).contract (runScope (shipped P H mem) ask (queryYields vs)) s fun r t =>
      EvalMoves P exact s t ∧ match r with
        | .error st => SignalOk P t (Below P op) st
        | .ok l => Carried P exact t op l (vs.map (reference P s.engine.env)) := by
  induction vs generalizing s with
  | nil => exact Prog.wp_run_ret ⟨.refl h.inv, .nil⟩
  | cons v vs ih =>
    obtain ⟨hv, hdep⟩ := hvs v (by simp)
    rw [queryYields]
    refine wp_scope_query h hv fun a t ht ha => ?_
    rcases a with slot | st
    · refine Prog.wp_run_bind (wp_mono (ih (h.moves ht) fun u hu => hvs u (by simp [hu])) ?_)
      rintro r u ⟨hu, hr⟩
      have htu := EvalMoves.trans ht hu
      rw [EvalMoves.env ht] at hr
      rcases r with st | l
      · exact Prog.wp_run_ret ⟨htu, hr⟩
      · exact Prog.wp_run_ret ⟨htu, .cons ⟨rfl, (ha.below hdep).moves hu⟩ hr⟩
    · exact Prog.wp_run_ret ⟨ht, ha.signal_below hdep⟩

/-! ## Bindings -/

/-- A run in a scope with a block binding: it starts with the block bound, and at its end everything
is as it was before. -/
theorem wp_withBinding {α : Type} (hP : P.Verified) (h : Running P exact ask s) {b : Blk}
    {args : List (Answer APInt)} (hactive : op ∈ s.engine.active) (hbody : P.loopBody op = some b)
    (hb : b ∉ s.engine.blocks) (hargs : args.length = P.numArgs b)
    (hcomp : ∀ a ∈ args, a.isCompleted = true)
    (htyped : P.Acyclic → ListHasType (P.argTypes b) (args.map Answer.payload?))
    (hfreeze : 0 < s.engine.freezes) {body : ScopeM Op Blk σ APInt α}
    {R : α → State Op Blk σ APInt → Prop} {Q : α → State Op Blk σ APInt → Prop}
    (hrun : ∀ t, Running P exact ask t → t.engine.active = s.engine.active → Continues s t →
      t.engine.env = s.engine.env.bind b (args.map Answer.payload?) →
      wp (evalTheory P exact).contract (runScope (shipped P H mem) ask body) t fun a u =>
        EvalMoves P exact t u ∧ R a u)
    (hq : ∀ a u t, R a u → t.engine.active = u.engine.active → Continues u t →
      EvalInv P exact t → EvalRelBy 1 0 s t → Continues s t → Q a t) :
    wp (evalTheory P exact).contract (runScope (shipped P H mem) ask
      (EvalScope.withBinding b args body)) s Q := by
  have hf := h.inv.frames
  refine Prog.wp_run_bind ?_
  rw [Prog.run_lift]
  refine wp_bind (wp_read (wp_bind (wp_require (fun harity => ?_) fun _ => ?_)))
  · exact absurd hargs (of_decide_eq_false harity)
  refine wp_bind (wp_require (fun htwice => ?_) fun _ => wp_record fun hr => ?_)
  · refine absurd htwice ?_
    simp only [Bool.not_eq_false, List.all_eq_true, decide_eq_true_eq]
    rintro f hf rfl
    exact hb (List.mem_map_of_mem hf)
  let t := (s.bind P b args).note (.bound b args)
  have hft : FramesInv P t.engine := hf.bind hb hargs hcomp htyped hactive hbody hfreeze
  have henv : t.engine.env = s.engine.env.bind b (args.map Answer.payload?) :=
    State.bind_env hf hb hargs
  have hblocks : t.engine.blocks = s.engine.blocks ++ [b] := State.bind_blocks
  have hinv : EvalInv P exact t := by
    refine ⟨hr.handles.store, hr.cache, hft, ?_, h.inv.slots, ?_⟩
    · exact h.inv.memo.bind hP hf hb hargs hft fun he v hv => hr.fresh he b args rfl v hv
    · rw [hblocks, List.reverse_append]
      simp only [t, State.note, openBlocks]
      have : openBlocks P (s.bind P b args).log = some s.engine.blocks.reverse := h.inv.blocks
      simp [this, hb, hargs]
  have hcont : Continues s t := .note (by simp) rfl rfl rfl rfl rfl rfl rfl rfl
  refine ⟨hinv.guar (e := .bound b args) rfl (by simp [Event.isStore]) (by simp), ?_⟩
  refine Prog.wp_run_bind (wp_mono (hrun t (h.of_inv hinv rfl) rfl hcont henv) ?_)
  rintro a u ⟨hu, hR⟩
  -- The last frame is still the one of `b`.
  have hublocks : u.engine.blocks = s.engine.blocks ++ [b] := hu.rel.blocks.trans hblocks
  obtain ⟨frames, frame, hframes, hframe⟩ : ∃ frames frame, u.engine.frames = frames ++ [frame] ∧
      frame.block = b := by
    have hlen : u.engine.frames ≠ [] := by
      intro hnil
      simp [Engine.blocks, hnil] at hublocks
    refine ⟨u.engine.frames.dropLast, u.engine.frames.getLast hlen,
      (List.dropLast_append_getLast hlen).symm, ?_⟩
    rw [Engine.blocks, ← List.dropLast_append_getLast hlen, List.map_append] at hublocks
    have := congrArg List.getLast? hublocks
    simpa using this
  refine Prog.wp_run_bind ?_
  rw [Prog.run_lift]
  refine wp_bind (wp_read ?_)
  have hlast : u.engine.frames.getLast? = some frame := by simp [hframes]
  rw [hlast]
  refine wp_bind (wp_require (fun horder => ?_) fun _ => wp_record fun hr' => ?_)
  · exact absurd hframe (by simpa using horder)
  let w := (u.unbind P frame).note (.unbound b)
  have hfu := hu.inv.frames
  have hfw : FramesInv P w.engine := hfu.unbind hframes
  have hwblocks : w.engine.blocks = s.engine.blocks := by
    have := (State.unbind_blocks (P := P) hframes).trans hublocks
    rw [hframe] at this
    exact List.append_cancel_right this
  have hlook : ∀ c i, w.engine.bindings.lookup (c, i) = s.engine.bindings.lookup (c, i) := by
    intro c i
    have hwu : w.engine.bindings.lookup (c, i) =
        if c = frame.block then none else u.engine.bindings.lookup (c, i) :=
      State.unbind_lookup hfu c i
    have htl : t.engine.bindings.lookup (c, i) =
        if c = b then args[i]? else s.engine.bindings.lookup (c, i) :=
      State.bind_lookup hf hb hargs c i
    rw [hwu, hframe]
    split
    · next hc =>
      subst hc
      cases hl : s.engine.bindings.lookup (c, i) with
      | none => rfl
      | some a => exact absurd (hf.bound c i a hl).1 hb
    · next hc => rw [hu.rel.bindings, htl, if_neg hc]
  have hwinv : EvalInv P exact w := by
    refine ⟨hr'.handles.store, hr'.cache, hfw, hu.inv.memo.unbind hfu hframes, hu.inv.slots, ?_⟩
    rw [hwblocks]
    have : openBlocks P (u.unbind P frame).log = some (b :: s.engine.blocks.reverse) := by
      have := hu.inv.blocks
      rw [hublocks, List.reverse_append] at this
      exact this
    simp [w, State.note, openBlocks, this]
  have hcontw : Continues u w := .note (by simp) rfl rfl rfl rfl rfl rfl rfl rfl
  refine ⟨hwinv.guar (e := .unbound b) rfl (by simp [Event.isStore]) (by simp), ?_⟩
  refine Prog.wp_run_ret (hq a u w hR rfl hcontw hwinv ⟨?_, hwblocks, fun key => hlook key.1 key.2,
    ?_, ?_⟩ (hcont.trans (hu.continues.trans hcontw)))
  · exact hu.rel.active
  · exact hu.rel.freezes
  · have h₁ : work u.log + u.engine.remaining = work t.log + t.engine.remaining := hu.rel.work
    have h₂ : work t.log = work s.log + 1 := by
      simp only [t, State.note, work]
      rw [List.countP_cons_of_pos (by rfl)]
      rfl
    have h₃ : work w.log = work u.log := work_cons rfl _
    have h₄ : t.engine.remaining = s.engine.remaining := rfl
    have h₅ : w.engine.remaining = u.engine.remaining := rfl
    omega

/-! ## Iterations -/

/-- What the rest of the reference loop gives for a result. -/
def loopResult (P : Program Op Blk) (env : Env Blk) (body : Blk) (isUnsigned : Bool)
    (ub step : APInt) (fuel : ℕ) (iv : APInt) (values : List (Option APInt)) (i : ℕ) :
    Option APInt :=
  (Reference.iterate isUnsigned ub step (Reference.yields P (reference P) env body) fuel iv
    values).bind fun results => (results[i]?).join

/-- One answer for every result, each fit for the value of its result. -/
def ResultsOk (P : Program Op Blk) (exact : Prop) (s : State Op Blk σ APInt) (op : Op)
    (value : ℕ → Option APInt) (l : List (Answer APInt)) : Prop :=
  l.length = P.numResults op ∧
    ∀ (i : ℕ) a, l[i]? = some a → AnswerOk P exact s (value i) (Below P op) a

end

theorem resultsOk_everyResult {value : ℕ → Option APInt} {a : Answer APInt}
    (h : ∀ i, AnswerOk P exact s (value i) (Below P op) a) :
    ResultsOk P exact s op value (everyResult P op a) := by
  refine ⟨by simp [everyResult], fun i b hb => ?_⟩
  obtain ⟨-, rfl⟩ := List.mem_replicate.mp (List.mem_of_getElem? hb)
  exact h i

theorem resultsOk_carried {carried : List (Answer APInt)} {values : List (Option APInt)}
    (h : Carried P exact s op carried values) (hlen : values.length = P.numResults op) :
    ResultsOk P exact s op (fun i => (values[i]?).join) carried := by
  refine ⟨h.length_eq.trans hlen, fun i a ha => ?_⟩
  have hlt := (List.getElem?_eq_some_iff.mp ha).1
  have hlt' : i < values.length := h.length_eq ▸ hlt
  have hrel := ((List.forall₂_iff_get.mp h).2 i hlt hlt').2
  have hget : carried[i] = a := (List.getElem?_eq_some_iff.mp ha).2
  simp only [List.get_eq_getElem, hget] at hrel
  simpa [List.getElem?_eq_getElem hlt'] using hrel

variable {body : Blk} {lb ub step : Value Op Blk} {inits yields : List (Value Op Blk)} {ty : Ty}
  [DecidableEq Op] [DecidableEq Blk] [Fintype Op]

/-- One iteration: a step is charged, the block is bound, and what the body yields agrees with what
the reference loop carries on. -/
theorem wp_iteration (hP : P.Verified) (h : Running P exact ask s)
    (hshape : P.LoopShape op lb ub step inits body yields ty) (hloop : P.isLoop op = true)
    (hactive : op ∈ s.engine.active) (hb : body ∉ s.engine.blocks) (hfreeze : 0 < s.engine.freezes)
    {iv : APInt} (hiv : P.Acyclic → HasType (some ty) (some iv)) {carried : List (Answer APInt)}
    {values : List (Option APInt)} (hcarried : Carried P exact s op carried values)
    (hvalues : P.Acyclic → ListHasType (P.resultTypes op) values)
    (hlen : values.length = P.numResults op)
    {f : Except Signal (List (Answer APInt)) → ScopeM Op Blk σ APInt (List (Answer APInt))}
    {Q : List (Answer APInt) → State Op Blk σ APInt → Prop}
    (hexhausted : ResultsOk P exact s op (fun _ => none) (everyResult P op (.signal .exhausted)) →
      Q (everyResult P op (.signal .exhausted)) s)
    (hf : ∀ r t, EvalMoves P exact s t → (match r with
      | .error st => SignalOk P t (Below P op) st
      | .ok l => Carried P exact t op l
          (Reference.yields P (reference P) s.engine.env body iv values)) →
      wp (evalTheory P exact).contract (runScope (shipped P H mem) ask (f r)) t Q) :
    wp (evalTheory P exact).contract (runScope (shipped P H mem) ask (do
      if !(← EvalScope.declareCost) then
        return everyResult P op (.signal .exhausted)
      let induction ← EvalScope.allocate iv
      f (← EvalScope.withBinding body (.known induction :: carried)
        (queryYields (P.yieldedValues body))))) s Q := by
  refine Prog.wp_run_bind ?_
  rw [EvalScope.declareCost, Prog.run_lift]
  refine wp_declareCost (fun h0 => ?_) fun h1 hr => ?_
  · refine Prog.wp_run_ret (hexhausted (resultsOk_everyResult fun i => .of_signal h0))
  -- The step is charged.
  have hinv : EvalInv P exact (s.charge.note .charged) :=
    h.inv.of_eq hr rfl rfl rfl rfl rfl h.inv.frames.loops rfl
  have hcharge : EvalRelBy 0 1 s (s.charge.note .charged) := by
    refine ⟨rfl, rfl, fun _ => rfl, rfl, ?_⟩
    have h₁ : work (s.charge.note .charged).log = work s.log := work_cons rfl _
    have h₂ : (s.charge.note .charged).engine.remaining = s.engine.remaining - 1 := rfl
    omega
  have hcont : Continues s (s.charge.note .charged) := .charge h1
  refine ⟨hinv.guar (e := .charged) rfl (by simp [Event.isStore]) (by simp), ?_⟩
  have hrun : Running P exact ask (s.charge.note .charged) := h.of_inv hinv rfl
  refine wp_scope_allocate hrun fun v t ht hv hpay => ?_
  -- The block is bound to the induction value and the carried values.
  have hst : Continues s t := hcont.trans ht.continues
  have htenv : t.engine.env = s.engine.env := (EvalMoves.env ht).trans rfl
  have hcarried' := hcarried.stable (t := t) ht.rel.active hst
  have hnum : P.numArgs body = carried.length + 1 := by
    have := congrArg List.length hshape.args
    rw [Program.numArgs, this, List.length_cons, hcarried.length_eq, hlen, Program.numResults]
  have htyped : P.Acyclic →
      ListHasType (P.argTypes body)
        (((.known v : Answer APInt) :: carried).map Answer.payload?) := by
    intro hA
    rw [hshape.args, List.map_cons, Answer.payload?_known, hpay]
    exact .cons (hiv hA) ((hvalues hA).of_le (hcarried.le hA))
  refine Prog.wp_run_bind (wp_withBinding (R := fun r u => match r with
      | .error st => SignalOk P u (Below P op) st
      | .ok l => Carried P exact u op l
          (Reference.yields P (reference P) s.engine.env body iv values)) hP (hrun.moves ht)
    (ht.rel.active ▸ hactive) (Program.loopBody_eq_some.mpr hshape.regions) (ht.rel.blocks ▸ hb)
    (by simpa using hnum.symm) ?_ htyped (ht.rel.freezes ▸ hfreeze) ?_ ?_)
  · intro a ha
    rcases List.mem_cons.mp ha with rfl | ha
    · rfl
    · obtain ⟨i, hi⟩ := List.mem_iff_getElem.mp ha
      obtain ⟨hi, rfl⟩ := hi
      exact ((List.forall₂_iff_get.mp hcarried).2 i hi (hcarried.length_eq ▸ hi)).1
  · intro u hu hact hcontu henv
    have hdeps : ∀ v ∈ P.yieldedValues body, P.Valid v ∧ v ∈ P.dependencies op := fun v hv =>
      ⟨hP.valid_yield hv, List.mem_append_right _ (by
        simpa [hloop, Program.loopBody_eq_some.mpr hshape.regions] using hv)⟩
    refine wp_mono (wp_queryYields hu hdeps) fun r w hw => ⟨hw.1, ?_⟩
    rcases r with st | l
    · exact hw.2
    · -- What is yielded for the engine's arguments is right for those of the reference loop.
      rw [henv, htenv, List.map_cons, Answer.payload?_known, hpay] at hw
      refine Carried.imp hw.2 fun hA v hv a ha => ha.mono ?_ fun he hnone => ?_
      · refine reference_mono hP ?_ ?_ ?_ (hP.valid_yield hv)
        · exact Env.le_bind (Env.le_refl _) _ (.cons (fun _ hx => hx) (hcarried.le hA))
        · exact (h.inv.frames.typed hA).bind (hpay ▸ htyped hA)
        · exact (h.inv.frames.typed hA).bind (hshape.args ▸ .cons (hiv hA) (hvalues hA))
      · rw [← hcarried.eq hA he]
        exact hnone
  · intro r u w hR hact hcontw hwinv hrel hcontt
    have hmoves : EvalMoves P exact s w := by
      have htrans : EvalRelBy 1 1 s w := (hcharge.trans ht.rel).trans hrel
      exact ⟨h.inv, hwinv, htrans.cancel, hst.trans hcontt⟩
    refine hf r w hmoves ?_
    rcases r with st | l
    · exact SignalOk.stable hR hact hcontw
    · exact Carried.stable hR hact hcontw

/-- **The loop of the engine follows the reference loop.** -/
theorem wp_iterate (hP : P.Verified) (h : Running P exact ask s)
    (hshape : P.LoopShape op lb ub step inits body yields ty) (hloop : P.isLoop op = true)
    (hactive : op ∈ s.engine.active) (hb : body ∉ s.engine.blocks) (hfreeze : 0 < s.engine.freezes)
    {isUnsigned : Bool} {ubv stepv : APInt} {fuel : ℕ} {iv : APInt}
    (hiv : P.Acyclic → HasType (some ty) (some iv)) {carried : List (Answer APInt)}
    {values : List (Option APInt)} (hcarried : Carried P exact s op carried values)
    (hvalues : P.Acyclic → ListHasType (P.resultTypes op) values)
    (hlen : values.length = P.numResults op) :
    wp (evalTheory P exact).contract (runScope (shipped P H mem) ask
      (iterate P op body isUnsigned ubv stepv fuel iv carried)) s fun l t =>
      EvalMoves P exact s t ∧ ResultsOk P exact t op
        (loopResult P s.engine.env body isUnsigned ubv stepv fuel iv values) l := by
  induction fuel generalizing s iv carried values with
  | zero =>
    exact Prog.wp_run_ret ⟨.refl h.inv, resultsOk_everyResult fun i => .of_unknown fun _ _ => rfl⟩
  | succ fuel ih =>
    rw [iterate]
    split
    · next hless =>
      refine wp_iteration hP h hshape hloop hactive hb hfreeze hiv hcarried hvalues hlen
        (fun hex => ⟨.refl h.inv, hex.1, fun i a ha => ?_⟩) fun r t ht hr => ?_
      · obtain ⟨-, rfl⟩ := List.mem_replicate.mp (List.mem_of_getElem? ha)
        exact (hex.2 i _ ha).pass
      rcases r with st | yielded
      · exact Prog.wp_run_ret ⟨ht, resultsOk_everyResult fun i => .of_signal hr⟩
      · simp only
        split
        · next hov =>
          refine Prog.wp_run_ret ⟨ht, resultsOk_everyResult fun i => .of_unknown fun _ _ => ?_⟩
          simp [loopResult, Reference.iterate, hless, hov]
        · next hov =>
          have hyields : P.Acyclic → ListHasType (P.resultTypes op)
              (Reference.yields P (reference P) s.engine.env body iv values) := fun hA =>
            listHasType_map (hshape.yieldedValues ▸ hshape.yieldTypes) fun v hv =>
              reference_hasType hP ((h.inv.frames.typed hA).bind
                (hshape.args ▸ .cons (hiv hA) (hvalues hA))) (hP.valid_yield hv)
          have hylen : (Reference.yields P (reference P) s.engine.env body iv values).length =
              P.numResults op := by
            have := congrArg List.length hshape.yieldTypes
            rw [List.length_map, List.length_map] at this
            rw [Reference.yields, List.length_map, hshape.yieldedValues, this, Program.numResults]
          have hnext : P.Acyclic →
              HasType (some ty) (some (addOv isUnsigned iv stepv).1) := by
            rintro hA x ⟨⟩
            rw [Reference.width_addOv]
            exact hiv hA iv rfl
          refine wp_mono (ih (h.moves ht) (ht.rel.active ▸ hactive) (ht.rel.blocks ▸ hb)
            (ht.rel.freezes ▸ hfreeze) hnext hr hyields hylen) fun l u hu => ?_
          refine ⟨EvalMoves.trans ht hu.1, ?_⟩
          have hres := hu.2
          rw [EvalMoves.env ht] at hres
          have heq : loopResult P s.engine.env body isUnsigned ubv stepv (fuel + 1) iv values =
              loopResult P s.engine.env body isUnsigned ubv stepv fuel
                (addOv isUnsigned iv stepv).1
                (Reference.yields P (reference P) s.engine.env body iv values) := by
            funext i
            simp only [loopResult, Reference.iterate, if_pos hless, if_neg hov]
          rw [heq]
          exact hres
    · next hless =>
      refine Prog.wp_run_ret ⟨.refl h.inv, ?_⟩
      have heq : loopResult P s.engine.env body isUnsigned ubv stepv (fuel + 1) iv values =
          fun i => (values[i]?).join := by
        funext i
        simp only [loopResult, Reference.iterate, if_neg hless, Option.bind_some]
      rw [heq]
      exact resultsOk_carried hcarried hlen

/-- A scope with a cache freeze. -/
theorem wp_withFreeze {α : Type} (h : Running P exact ask s) {p : ScopeM Op Blk σ APInt α}
    {Q : α → State Op Blk σ APInt → Prop}
    (hrun : ∀ t, Running P exact ask t → 0 < t.engine.freezes →
      t.engine.active = s.engine.active → t.engine.blocks = s.engine.blocks →
      t.engine.env = s.engine.env → Continues s t →
      wp (evalTheory P exact).contract (runScope (shipped P H mem) ask p) t fun a u =>
        EvalMoves P exact t u ∧ ∀ w, w.engine.active = u.engine.active → Continues u w →
          EvalMoves P exact s w → Q a w) :
    wp (evalTheory P exact).contract
      (runScope (shipped P H mem) ask (EvalScope.withFreeze p)) s Q := by
  refine Prog.wp_run_bind ?_
  rw [Prog.run_lift]
  refine wp_record fun hr => ?_
  let t := s.freeze.note .frozen
  have hf := h.inv.frames
  have hinv : EvalInv P exact t :=
    ⟨hr.handles.store, hr.cache, ⟨hf.nodup, hf.loops, hf.bound, hf.total, hf.typed,
      fun _ => Nat.succ_pos _⟩, ⟨h.inv.memo.valid, h.inv.memo.agrees⟩, h.inv.slots, h.inv.blocks⟩
  have hcont : Continues s t := .note (by simp) rfl rfl rfl rfl rfl rfl rfl rfl
  refine ⟨hinv.guar (e := .frozen) rfl (by simp [Event.isStore]) (by simp), ?_⟩
  refine Prog.wp_run_bind (wp_mono (hrun t (h.of_inv hinv rfl) (Nat.succ_pos _) rfl rfl rfl hcont)
    ?_)
  rintro a u ⟨hu, hq⟩
  have hfreezes : u.engine.freezes = s.engine.freezes + 1 := hu.rel.freezes
  refine Prog.wp_run_bind ?_
  rw [Prog.run_lift]
  refine wp_bind
    (wp_read (wp_bind (wp_require (fun horder => ?_) fun _ => wp_record fun hr' => ?_)))
  · have := of_decide_eq_false horder
    omega
  let w := u.thaw.note .thawed
  have hblocks : u.engine.blocks = s.engine.blocks := hu.rel.blocks
  have hfu := hu.inv.frames
  have hthaw : w.engine.freezes = s.engine.freezes := by
    change u.engine.freezes - 1 = _
    omega
  have hwinv : EvalInv P exact w := by
    refine ⟨hr'.handles.store, hr'.cache, ⟨hfu.nodup, hfu.loops, hfu.bound, hfu.total, hfu.typed,
      fun hne => ?_⟩, ⟨hu.inv.memo.valid, hu.inv.memo.agrees⟩, hu.inv.slots, hu.inv.blocks⟩
    rw [hthaw]
    refine hf.frozen fun hnil => hne ?_
    have : u.engine.blocks = [] := by rw [hblocks, Engine.blocks, hnil, List.map_nil]
    exact List.map_eq_nil_iff.mp this
  have hcontw : Continues u w := .note (by simp) rfl rfl rfl rfl rfl rfl rfl rfl
  refine ⟨hwinv.guar (e := .thawed) rfl (by simp [Event.isStore]) (by simp), ?_⟩
  refine Prog.wp_run_ret (hq w rfl hcontw ⟨h.inv, hwinv,
    ⟨hu.rel.active, hblocks, hu.rel.bindings, hthaw, ?_⟩, hcont.trans (hu.continues.trans hcontw)⟩)
  have h₁ : work t.log = work s.log := work_cons rfl _
  have h₂ : work w.log = work u.log := work_cons rfl _
  have h₃ : work u.log + u.engine.remaining = work t.log + t.engine.remaining := hu.rel.work
  have h₄ : t.engine.remaining = s.engine.remaining := rfl
  have h₅ : w.engine.remaining = u.engine.remaining := rfl
  omega

/-- **`ForOpEval::evaluate` computes the loop.** -/
theorem wp_evaluate (hP : P.Verified) (h : Running P exact ask s) {isUnsigned : Bool}
    (hkind : P.kind op = .scfFor isUnsigned) (hactive : op ∈ s.engine.active)
    (hb : ∀ b, P.loopBody op = some b → b ∉ s.engine.blocks) :
    wp (evalTheory P exact).contract (runScope (shipped P H mem) ask (evaluate P op isUnsigned)) s
      fun l t => EvalMoves P exact s t ∧
        ResultsOk P exact t op (fun i => reference P s.engine.env (.result op i)) l := by
  have hloop : P.isLoop op = true := by simp [Program.isLoop, hkind]
  obtain ⟨lb, ub, step, inits, body, yields, ty, hshape⟩ := hP.loop op hloop
  have hbody := Program.loopBody_eq_some.mpr hshape.regions
  have hvalue : P.Acyclic → ∀ i, reference P s.engine.env (.result op i) =
      (Reference.loop isUnsigned (reference P s.engine.env lb) (reference P s.engine.env ub)
        (reference P s.engine.env step) (inits.map (reference P s.engine.env))
        (Reference.yields P (reference P) s.engine.env body)).bind
          fun results => (results[i]?).join := by
    intro hA i
    rw [reference_result hA, Reference.opResult, hkind, hshape.operands]
    simp only [hbody]
  have hdeps : ∀ v ∈ P.operands op, P.Valid v ∧ v ∈ P.dependencies op := fun v hv =>
    ⟨hP.valid op v hv, P.mem_dependencies hv⟩
  rw [evaluate, hshape.operands, hbody]
  simp only [evaluateLoop]
  refine Prog.wp_run_bind (wp_mono (wp_queryKnown h [lb, ub, step] fun v hv =>
    hdeps v (by rw [hshape.operands]; simp only [List.mem_cons] at hv ⊢; tauto)) ?_)
  rintro r t ⟨ht, hr⟩
  rcases r with (st | _) | l
  · exact Prog.wp_run_ret ⟨ht, resultsOk_everyResult fun i => .of_signal hr⟩
  · -- A control value is unknown.
    refine Prog.wp_run_ret ⟨ht, resultsOk_everyResult fun i => .of_unknown fun hA he => ?_⟩
    rw [hvalue hA]
    obtain ⟨v, hv, hnone⟩ := hr hA he
    simp only [List.mem_cons, List.not_mem_nil, or_false] at hv
    rcases hv with rfl | rfl | rfl
    · simp [Reference.loop, hnone]
    · cases reference P s.engine.env lb <;> simp [Reference.loop, hnone]
    · cases reference P s.engine.env lb <;> cases reference P s.engine.env ub <;>
        simp [Reference.loop, hnone]
  obtain ⟨lbv, ubv, stepv, rfl⟩ : ∃ a b c, l = [a, b, c] :=
    List.length_eq_three.mp (by simpa using (List.Forall₂.length_eq hr).symm)
  obtain ⟨hlb, hub, hstep⟩ : (Usable t lbv ∧ (P.Acyclic → _)) ∧ (Usable t ubv ∧ (P.Acyclic → _)) ∧
      (Usable t stepv ∧ (P.Acyclic → _)) := by
    simpa [AllKnown] using hr
  simp only
  refine Prog.wp_run_bind (wp_mono (wp_queryKnown (h.moves ht) inits fun v hv =>
    hdeps v (by rw [hshape.operands]; simp [hv])) ?_)
  rintro r u ⟨hu, hr⟩
  have htu := EvalMoves.trans ht hu
  rw [EvalMoves.env ht] at hr
  rcases r with (st | _) | carried
  · exact Prog.wp_run_ret ⟨htu, resultsOk_everyResult fun i => .of_signal hr⟩
  · -- An initial value is unknown.
    refine Prog.wp_run_ret ⟨htu, resultsOk_everyResult fun i => .of_unknown fun hA he => ?_⟩
    obtain ⟨v, hv, hnone⟩ := hr hA he
    have hall : (inits.map (reference P s.engine.env)).all Option.isSome = false := by
      rw [List.all_eq_false]
      exact ⟨none, List.mem_map.mpr ⟨v, hv, hnone⟩, by simp⟩
    rw [hvalue hA, hlb.2 hA, hub.2 hA, hstep.2 hA]
    simp [Reference.loop, hall]
  have hinits : P.Acyclic → inits.map (reference P s.engine.env) =
      carried.map fun w => some w.payload := by
    intro hA
    rw [← List.forall₂_eq_eq_eq, List.forall₂_map_left_iff, List.forall₂_map_right_iff]
    exact hr.imp fun v w hw => hw.2 hA
  have hinitLen : (inits.map (reference P s.engine.env)).length = P.numResults op := by
    have := congrArg List.length hshape.initTypes
    simpa [Program.numResults] using this
  simp only
  split
  · next hbad =>
    refine Prog.wp_run_ret ⟨htu, resultsOk_everyResult fun i => .of_unknown fun hA _ => ?_⟩
    rw [hvalue hA, hlb.2 hA, hub.2 hA, hstep.2 hA]
    simp [Reference.loop, hbad]
  · next hbad =>
    -- The loop runs, with the values of the reference loop.
    have hcarried : Carried P exact u op (carried.map .known)
        (inits.map (reference P s.engine.env)) := by
      rw [Carried, List.forall₂_map_left_iff, List.forall₂_map_right_iff]
      exact List.Forall₂.flip (hr.imp fun v w hw => ⟨rfl, .of_known hw.1 hw.2⟩)
    have hvalues : P.Acyclic →
        ListHasType (P.resultTypes op) (inits.map (reference P s.engine.env)) := fun hA =>
      listHasType_map hshape.initTypes fun v hv => reference_hasType hP (h.inv.frames.typed hA)
        (hP.valid op v (by rw [hshape.operands]; simp [hv]))
    have hiv : P.Acyclic → HasType (some ty) (some lbv.payload) := by
      intro hA
      rw [← hlb.2 hA, ← hshape.control.1]
      exact reference_hasType hP (h.inv.frames.typed hA)
        (hP.valid op lb (by rw [hshape.operands]; simp))
    have heq : P.Acyclic → ∀ i, reference P s.engine.env (.result op i) =
        loopResult P s.engine.env body isUnsigned ubv.payload stepv.payload
          (2 ^ lbv.payload.width) lbv.payload (inits.map (reference P s.engine.env)) i := by
      intro hA i
      have hall : (inits.map (reference P s.engine.env)).all Option.isSome = true := by
        rw [hinits hA]
        simp
      rw [hvalue hA, hlb.2 hA, hub.2 hA, hstep.2 hA, Reference.loop]
      simp only [hall, Bool.not_eq_true] at hbad ⊢
      simp only [hbad, Bool.not_false, Bool.and_self, if_true]
      rfl
    refine wp_withFreeze (h.moves htu) fun v hv hfreeze hact hblocks henv hcont => ?_
    have hactive' : op ∈ v.engine.active := hact ▸ htu.rel.active ▸ hactive
    have hblocks' : body ∉ v.engine.blocks := by
      rw [hblocks, htu.rel.blocks]
      exact hb body hbody
    refine wp_mono (wp_iterate hP hv hshape hloop hactive' hblocks' hfreeze hiv
      (hcarried.stable hact hcont) hvalues hinitLen) fun l w hw => ⟨hw.1, fun x hx hc hm => ?_⟩
    refine ⟨EvalMoves.trans htu hm, hw.2.1, fun i a ha => ?_⟩
    have hok := (hw.2.2 i a ha).stable hx hc
    rw [henv, EvalMoves.env htu] at hok
    refine ⟨hok.usable, fun hA => ?_, hok.signal⟩
    simp only [heq hA i]
    exact hok.agrees hA

end SCF

end MlirInterpreter
