import MlirInterpreter.Evaluation.Loops
import MlirInterpreter.Evaluation.Comparison

/-!
# The engine with the shipped models keeps its contract

`evalTheory_sound` goes through the places of the engine's code.  Three of them carry the argument:

* a filled slot holds what the value is without any binding (`evalTheory_fill`), because the cache
  is written only while no block is bound;
* reading one gives the value under the current bindings (`AnswerOk.of_slot`), because known values
  stay known when more is bound;
* a signal that an operation is demanded again does not leave the operation's own evaluation in a
  program without use-def cycles (`AnswerOk.leave`).
-/

set_option autoImplicit false

namespace MlirInterpreter

open Recorded

variable {Op Blk σ : Type} [DecidableEq Op] [DecidableEq Blk] [Fintype Op] {P : Program Op Blk}
  {H : HashFns Op Blk} {mem : Malloc} {exact : Prop}
  {ask : Value Op Blk → EngineM Op Blk σ APInt (Answer APInt)}

/-! ## The registered models -/

/-- An operation with a model is an `arith` operation with a way to compute its result, or a
loop. -/
theorem shippedModels_op {op : Op} {model : OpModel Op Blk σ APInt}
    (hm : (shippedModels P H).op op = some model) :
    (P.isArith op = true ∧ ∃ evaluate, model = Arith.binaryOpEval P H op evaluate ∧
      ((∃ fn, evaluate = Arith.evaluateKnown P fn op ∧
          Reference.ofArith (P.kind op).name = Reference.both fn) ∨
        evaluate = Arith.evaluateMul P op ∧
          Reference.ofArith (P.kind op).name = Reference.product)) ∨
    ∃ isUnsigned, P.kind op = .scfFor isUnsigned ∧ model = SCF.forOpEval P H op isUnsigned := by
  simp only [shippedModels] at hm
  cases hk : P.kind op <;> simp only [hk, Option.some.injEq, reduceCtorEq] at hm
  · exact Or.inl ⟨by simp [Program.isArith, hk], _, hm.symm, Or.inl ⟨_, rfl, rfl⟩⟩
  · exact Or.inl ⟨by simp [Program.isArith, hk], _, hm.symm, Or.inl ⟨_, rfl, rfl⟩⟩
  · exact Or.inl ⟨by simp [Program.isArith, hk], _, hm.symm, Or.inr ⟨rfl, rfl⟩⟩
  · exact Or.inr ⟨_, rfl, hm.symm⟩

/-- Every shipped model says at once whether its operation can be cached. -/
theorem shippedModels_isCacheable {op : Op} {model : OpModel Op Blk σ APInt}
    (hm : (shippedModels P H).op op = some model) :
    model.isCacheable = pure (.completed (P.isMemoryEffectFree op)) := by
  rcases shippedModels_op hm with ⟨-, e, rfl, -⟩ | ⟨u, -, rfl⟩ <;> rfl

/-! ## Reading -/

section Reading

variable {s t : State Op Blk σ APInt}

/-- A memoized answer. -/
theorem EvalInv.memo_ok (hs : EvalInv P exact s) {v : Value Op Blk} {a : Answer APInt}
    (ha : s.memo v = some a) {reach : Op → Prop} :
    AnswerOk P exact s (reference P s.engine.env v) reach a where
  usable w hw := hs.handles.memo v a w ha hw
  agrees hA := hs.memo.now hs.frames hA ha
  signal st hst := by
    have := hs.cache.memo v a ha
    simp [hst, Answer.isCompleted] at this

/-- A block argument. -/
theorem EvalInv.arg_ok (hs : EvalInv P exact s) (b : Blk) (i : ℕ) {reach : Op → Prop} :
    AnswerOk P exact s (reference P s.engine.env (.arg b i)) reach
      ((s.engine.bindings.lookup (b, i)).getD .unknown) := by
  rw [reference_arg, Engine.env]
  cases hb : s.engine.bindings.lookup (b, i) with
  | none => exact .of_unknown fun _ _ => rfl
  | some a =>
    have hcomp := (hs.frames.bound b i a hb).2.2
    rcases a with (_ | v) | st
    · exact .of_unknown fun _ _ => rfl
    · exact .of_known (hs.handles.bindings _ _ v hb rfl) fun _ => rfl
    · simp [Answer.isCompleted] at hcomp

/-- **A cached answer is right under any bindings.** -/
theorem AnswerOk.of_slot (hP : P.Verified) (hs : EvalInv P exact s) {op : Op} {e i : ℕ}
    {entry : CacheEntry Op APInt} {a : Answer APInt} (hk : EntryFor P s op e)
    (he : s.cache.arena[e]? = some entry) (hi : entry.results[i]? = some (some a))
    {reach : Op → Prop} :
    AnswerOk P exact s (reference P s.engine.env (.result op i)) reach a := by
  obtain ⟨entry', he', -, hsame⟩ := hk
  obtain rfl : entry = entry' := by simpa [he] using he'
  obtain ⟨v, rfl, -⟩ := hs.cache.known e entry i a he hi
  refine .of_known (hs.handles.slots e entry i _ v he hi rfl).usable fun hA => ?_
  have hvalid : P.Valid (.result entry.op i) := by
    have hlt := (List.getElem?_eq_some_iff.mp hi).1
    rw [hs.cache.slots e entry he] at hlt
    exact hlt
  have hempty : Env.empty.le s.engine.env := fun b j x hx => by simp [Env.empty] at hx
  rw [hsame hA i]
  exact reference_mono hP hempty .empty (hs.frames.typed hA) hvalid _
    (hs.slots hA e entry i v he hi)

omit [DecidableEq Blk] [Fintype Op] in
/-- **Only an operation that is still being evaluated is reported as a cycle.** -/
theorem AnswerOk.leave {r : Option APInt} {op : Op} {a : Answer APInt} {i : ℕ}
    (h : AnswerOk P exact s r (Below P op) a)
    (hact : s.engine.active = Insert.insert op t.engine.active)
    (hrem : t.engine.remaining = s.engine.remaining) (hheap : s.heap ⊆ t.heap)
    (hq : t.queries = s.queries) : AnswerOk P exact t r (Reaches P (.result op i)) a where
  usable w hw := (h.usable w hw).mono hheap hq
  agrees := h.agrees
  signal st hst := by
    have hok := h.signal st hst
    cases st with
    | exhausted => exact hrem.trans hok
    | needsOrder => exact hok
    | cycle =>
      intro hA
      obtain ⟨o, ho, hreach⟩ := hok hA
      have hne : o ≠ op := fun hop => hA op (hop ▸ hreach)
      rw [hact, Finset.mem_insert] at ho
      exact ⟨o, ho.resolve_left hne, hreach.to_reflTransGen⟩

end Reading

/-! ## Writing -/

section Writing

variable {s t u : State Op Blk σ APInt}

/-- An answer that is right now is memoized. -/
theorem evalTheory_memoize (hP : P.Verified) (hs : EvalInv P exact s) {v : Value Op Blk}
    {a : Answer APInt} {reach : Op → Prop} (hv : P.Valid v)
    (ha : AnswerOk P exact s (reference P s.engine.env v) reach a) :
    (evalTheory P exact).Allows s ((s.memoize P v a).note (.memoized v a)) := by
  intro hr
  have hinv : EvalInv P exact ((s.memoize P v a).note (.memoized v a)) :=
    ⟨hr.handles.store, hr.cache, hs.frames.memoize a, hs.memo.memoize hP hs.frames hv ha.agrees,
      hs.slots, by
        have hblocks : ((s.memoize P v a).note (.memoized v a)).engine.blocks = s.engine.blocks :=
          State.memoize_blocks a
        rw [hblocks]
        exact hs.blocks⟩
  refine ⟨hinv.guar (e := .memoized v a) rfl (by simp [Event.isStore]) (by simp), hinv, ?_⟩
  exact ⟨rfl, State.memoize_blocks a, fun _ => rfl, rfl, by
    rw [State.note, work_cons rfl]
    rfl⟩

/-- An event of the code for `op`. -/
theorem evalTheory_noteOwn {op : Op} {e : Event Op Blk APInt} {F : Prop} (hs : EvalInv P exact s)
    (hw : (evalTheory P exact).Within s op) (he : e.isEval = false) (hst : e.isStore = false)
    (hwork : e.isWork = false) (hF : F) : (evalTheory P exact).AllowsOwn op s (s.note e) F := by
  intro hr
  obtain ⟨hg, hinv, hrel⟩ := evalTheory_note hs he hst hwork hr
  exact ⟨hg, hinv, hrel, hw, hF⟩

/-- A slot is filled with a value that is right without any binding. -/
theorem evalTheory_fillSlot (mem : Malloc) (hs : EvalInv P exact s) {op : Op} {e i : ℕ}
    {entry : CacheEntry Op APInt} {v : EvalValue APInt} (hk : EntryFor P s op e)
    (he : s.cache.arena[e]? = some entry) (hslot : entry.results[i]? = some none)
    (hframes : s.engine.frames = [])
    (hv : AnswerOk P exact s (reference P s.engine.env (.result op i)) (Below P op) (.known v)) :
    let r := retain mem .cache s.heap s.cache.copies v
    let t := (s.fillSlot e i r).note (.filled e i v r.value)
    (evalTheory P exact).Allows s t ∧ Continues s t := by
  intro r t
  have hcont : Continues s t := .fillSlot mem v he hslot
  refine ⟨fun hr => ?_, hcont⟩
  obtain ⟨entry', he', -, hsame⟩ := hk
  obtain rfl : entry = entry' := by simpa [he] using he'
  have hslots : P.Acyclic → ∀ (e' : ℕ) (ent : CacheEntry Op APInt) (j : ℕ) w,
      t.cache.arena[e']? = some ent → ent.results[j]? = some (some (.known w)) →
      reference P Env.empty (.result ent.op j) = some w.payload := by
    intro hA e' ent j w hent hj
    obtain ⟨old, hold, hop, -, hresults, -⟩ := State.fillSlot_arena hent
    rw [hop]
    rcases hresults j _ hj with hj | ⟨rfl, rfl, hw⟩
    · exact hs.slots hA e' old j w hold hj
    · obtain rfl : entry = old := by simpa [he] using hold
      obtain rfl : w = r.value := by simpa using hw
      have henv := hs.frames.env_eq_empty hframes
      have hpay := (hr.handles.filled e j v r.value rfl).2.2
      rw [hpay, ← hv.known_eq hA, ← henv, hsame hA j]
  have hinv : EvalInv P exact t :=
    ⟨hr.handles.store, hr.cache, hs.frames, hs.memo, hslots, hs.blocks⟩
  exact ⟨hinv.guar (e := .filled e i v r.value) rfl (fun _ => hframes) (by simp), hinv, rfl, rfl,
    fun _ => rfl, rfl, by
      simp only [t, State.note, work_cons (e := Event.filled e i v r.value) rfl]
      rfl⟩

/-- The answers of an evaluation are kept in an entry with the same results, while no block is
bound. -/
theorem evalTheory_fill (hs : EvalInv P exact s) {op : Op} {e : ℕ} {l : List (Answer APInt)}
    (hk : EntryFor P s op e) (hframes : s.engine.frames = [])
    (hl : (evalTheory P exact).Results s op l) :
    wp (evalTheory P exact).contract (fill (shipped P H mem) e l) s fun _ t =>
      EvalInv P exact t ∧ EvalRel s t ∧ Continues s t := by
  -- The entry stays one for the operation.
  let J : ℕ → State Op Blk σ APInt → Prop := fun _ t =>
    EvalInv P exact t ∧ EvalRel s t ∧ Continues s t
  refine wp_bind (wp_mono (wp_fillSlots (J := J) (fun j a t hj ht => ?_)
    ⟨hs, EvalRelBy.refl s, .refl s⟩) ?_)
  · obtain ⟨hinv, hrel, hcont⟩ := ht
    rw [Nat.zero_add]
    refine wp_fillSlot (fun _ => Or.inr rfl) (fun _ => ⟨hinv, hrel, hcont⟩)
      (fun _ _ _ _ => ⟨hinv, hrel, hcont⟩) fun entry v ha he hslot => ?_
    have hframes' : t.engine.frames = [] := by
      have hblocks := hrel.blocks
      simpa [Engine.blocks, hframes] using hblocks
    have hv := (hl.2 j a hj).stable hrel.active hcont
    rw [← hrel.env, ha] at hv
    obtain ⟨hallow, hcont'⟩ := evalTheory_fillSlot mem hinv (hk.stable hrel hcont) he hslot
      hframes' hv
    intro r u hr
    obtain ⟨hg, hinv', hrel'⟩ := hallow hr
    exact ⟨hg, hinv', EvalRelBy.trans hrel hrel', hcont.trans hcont'⟩
  · rintro _ t ⟨hinv, hrel, hcont⟩
    refine wp_record fun hr => ?_
    obtain ⟨hg, hinv', hrel'⟩ := evalTheory_note (e := .stored e) hinv rfl rfl rfl hr
    exact ⟨hg, hinv', EvalRelBy.trans hrel hrel', hcont.trans (.noted (by simp) t)⟩

/-- A new entry for `op` has no wrong slots. -/
theorem evalTheory_append (hs : EvalInv P exact s) (op : Op) (key : HashCode)
    (hframes : s.engine.frames = []) :
    let t := (s.append op key (P.numResults op)).note (.appended op key s.cache.arena.length)
    (evalTheory P exact).Allows s t ∧ EntryFor P t op s.cache.arena.length := by
  intro t
  refine ⟨fun hr => ?_, ⟨op, List.replicate (P.numResults op) none⟩, ?_, by simp, fun _ _ => rfl⟩
  · have hinv : EvalInv P exact t := by
      refine ⟨hr.handles.store, hr.cache, hs.frames, hs.memo, fun hA e entry i v he hi => ?_,
        hs.blocks⟩
      rcases State.append_arena he with he | ⟨-, rfl⟩
      · exact hs.slots hA e entry i v he hi
      · simp [List.getElem?_replicate] at hi
    exact ⟨hinv.guar (e := .appended op key s.cache.arena.length) rfl (fun _ => hframes) (by simp),
      hinv, rfl, rfl, fun _ => rfl, rfl, by
        simp only [t, State.note, work_cons (e := Event.appended op key s.cache.arena.length) rfl]
        rfl⟩
  · simp [t, State.note, State.append]

/-- A step is charged for an evaluation. -/
theorem evalTheory_charge (hs : EvalInv P exact s) (op : Op) (h0 : s.engine.remaining ≠ 0)
    (hr : EvalRely P exact (s.charge.note .charged)) :
    EvalGuar P exact (s.charge.note .charged) ∧
      (EvalRely P exact ((s.charge.note .charged).note (.evaluating op)) →
        EvalGuar P exact ((s.charge.note .charged).note (.evaluating op)) ∧
        EvalInv P exact ((s.charge.note .charged).note (.evaluating op)) ∧
        EvalRel s ((s.charge.note .charged).note (.evaluating op))) := by
  have hinv : EvalInv P exact (s.charge.note .charged) :=
    hs.of_eq hr rfl rfl rfl rfl rfl hs.frames.loops rfl
  refine ⟨hinv.guar (e := .charged) rfl (by simp [Event.isStore]) (by simp), fun hr' => ?_⟩
  have hinv' : EvalInv P exact ((s.charge.note .charged).note (.evaluating op)) :=
    hinv.of_eq hr' rfl rfl rfl rfl rfl hinv.frames.loops rfl
  refine ⟨hinv'.guar (e := .evaluating op) rfl (by simp [Event.isStore]) (by simp), hinv', rfl, rfl,
    fun _ => rfl, rfl, ?_⟩
  have hwork : work (Event.evaluating op :: .charged :: s.log) = work s.log + 1 := by
    simp [work]
  simp only [State.note, State.charge, hwork]
  omega

end Writing

/-! ## The methods -/

section Methods

variable {s : State Op Blk σ APInt} {op : Op} {model : OpModel Op Blk σ APInt}

/-- `getHash`. -/
theorem evalTheory_hash (hP : P.Verified) (hm : (shippedModels P H).op op = some model)
    (h : Running P exact ask s) :
    wp (evalTheory P exact).contract (runScope (shipped P H mem) ask model.getHash) s fun r t =>
      EvalMoves P exact s t ∧ ResultOk P t op (fun _ => True) r := by
  rcases shippedModels_op hm with ⟨harith, e, rfl, -⟩ | ⟨u, hkind, rfl⟩
  · obtain ⟨l, r, ty, hshape⟩ := hP.arith op harith
    have hvalid : ∀ v ∈ [l, r], P.Valid v := fun v hv => hP.valid op v (hshape.operands ▸ hv)
    refine Prog.wp_run_bind (wp_mono (Arith.wp_getKey h hshape.operands (hvalid l (by simp))
      (hvalid r (by simp))) fun k t ht => ?_)
    rcases k with k | st
    · exact Prog.wp_run_ret ⟨ht.1, trivial⟩
    · exact Prog.wp_run_ret ht
  · exact wp_getDefaultHash hP h op

/-- `isEquivalentTo`. -/
theorem evalTheory_equivalent (hP : P.Verified) (hm : (shippedModels P H).op op = some model)
    (h : Running P exact ask s) (other : Op) :
    wp (evalTheory P exact).contract (runScope (shipped P H mem) ask (model.isEquivalentTo other)) s
      fun r t => EvalMoves P exact s t ∧ (r = .completed true → SameResults P t op other) := by
  rcases shippedModels_op hm with ⟨harith, e, rfl, -⟩ | ⟨u, hkind, rfl⟩
  · exact Arith.wp_isEquivalentTo hP h harith other
  · exact wp_isDefaultEquivalent hP h op other

/-- `evaluate`. -/
theorem evalTheory_evaluates (hP : P.Verified) (hm : (shippedModels P H).op op = some model)
    (h : Running P exact ask s) (hw : (evalTheory P exact).Within s op) :
    wp (evalTheory P exact).contract (runScope (shipped P H mem) ask model.evaluate) s fun l t =>
      EvalMoves P exact s t ∧ (evalTheory P exact).Results t op l := by
  rcases shippedModels_op hm with ⟨harith, e, rfl, heval⟩ | ⟨u, hkind, rfl⟩
  · obtain ⟨l, r, ty, hshape⟩ := hP.arith op harith
    have hl := hP.valid op l (by simp [hshape.operands])
    have hr := hP.valid op r (by simp [hshape.operands])
    -- The one answer is about the one result.
    have single : ∀ {t : State Op Blk σ APInt} {a : Answer APInt}, EvalMoves P exact s t →
        AnswerOk P exact t (Reference.ofArith (P.kind op).name (reference P s.engine.env l)
          (reference P s.engine.env r)) (Below P op) a →
        EvalMoves P exact s t ∧ (evalTheory P exact).Results t op [a] := by
      refine fun {t a} ht ha => ⟨ht, by simp [Program.numResults, hshape.results], fun i b hb => ?_⟩
      obtain ⟨-, rfl⟩ : i = 0 ∧ a = b := by simpa [List.getElem?_singleton] using hb
      refine ⟨ha.usable, fun hA => ?_, ha.signal⟩
      rw [EvalMoves.env ht, reference_result hA, Reference.opResult_arith hshape.operands harith]
      exact ha.agrees hA
    rcases heval with ⟨fn, rfl, hfn⟩ | ⟨rfl, hfn⟩
    · refine wp_mono (Arith.wp_evaluateKnown h hshape.operands hl hr fn) ?_
      rintro _ t ⟨ht, a, rfl, ha⟩
      exact single ht (hfn ▸ ha)
    · refine wp_mono (Arith.wp_evaluateMul (t := ty) h hshape.operands hl hr fun hA => ?_) ?_
      · have htyped := h.inv.frames.typed hA
        exact ⟨hshape.lhsType ▸ reference_hasType hP htyped hl,
          hshape.rhsType ▸ reference_hasType hP htyped hr⟩
      · rintro _ t ⟨ht, a, rfl, ha⟩
        exact single ht (hfn ▸ ha)
  · refine wp_mono (SCF.wp_evaluate hP h hkind hw.1 hw.2) fun l t ht =>
      ⟨ht.1, ht.2.1, fun i a ha => ?_⟩
    rw [EvalMoves.env ht.1]
    exact ht.2.2 i a ha

/-- The value of an operation without a model is the integer it folds to, if it does. -/
theorem reference_constant (hA : P.Acyclic)
    (hm : (shippedModels P H).op op = (none : Option (OpModel Op Blk σ APInt))) (env : Env Blk)
    (i : ℕ) :
    reference P env (.result op i) = (P.constantAttr op).elim none fun
      | .integer a => some a
      | .other _ => none := by
  rw [reference_result hA, Reference.opResult, Program.constantAttr]
  simp only [shippedModels] at hm
  cases hk : P.kind op with
  | constant id value => cases value <;> rfl
  | other _ => rfl
  | scfYield => rfl
  | _ => simp [hk] at hm

/-- `Engine::evaluateConstant` converts a folded integer for the query, and knows no other
constant. -/
theorem wp_shippedConstant {C : Contract (State Op Blk σ APInt) Abort}
    {Q : Option (EvalValue APInt) → State Op Blk σ APInt → Prop}
    (hnone : (∀ a, P.constantAttr op ≠ some (.integer a)) → Q none s)
    (hinteger : ∀ a, P.constantAttr op = some (.integer a) →
      let v := newStorage mem s.heap (.query s.queries) a
      let t := (s.addStorage v).note (.allocated v)
      C.rely t → C.guar t ∧ Q (some v) t) :
    wp C (evaluateConstant (shipped P H mem) op) s fun r t => Q r.1 t := by
  have hattr : ∀ attr model, (shippedModels P H : Models Op Blk σ APInt).attr attr = some model →
      ∃ a, attr = .integer a ∧ integerAttrEval a = model := by
    intro attr model hmodel
    cases attr with
    | integer a => exact ⟨a, rfl, Option.some.inj hmodel⟩
    | other id => simp [shippedModels] at hmodel
  refine wp_evaluateConstant (fun h => hnone fun a ha => h (.integer a) _ a ha rfl rfl) ?_ ?_ ?_
  · intro attr model value _ hmodel hcacheable
    obtain ⟨a, -, rfl⟩ := hattr attr model hmodel
    simp [integerAttrEval] at hcacheable
  · intro attr model _ hmodel hcacheable
    obtain ⟨a, -, rfl⟩ := hattr attr model hmodel
    simp [integerAttrEval] at hcacheable
  · intro attr model payload ha hmodel hvalue
    obtain ⟨a, rfl, rfl⟩ := hattr attr model hmodel
    obtain rfl : a = payload := Option.some.inj hvalue
    exact hinteger a ha

/-- `Engine::evaluateConstant`. -/
theorem evalTheory_constant (hs : EvalInv P exact s) {i : ℕ}
    (hm : (shippedModels P H).op op = (none : Option (OpModel Op Blk σ APInt))) :
    wp (evalTheory P exact).contract (evaluateConstant (shipped P H mem) op) s fun r t =>
      EvalInv P exact t ∧ EvalRel s t ∧
        AnswerOk P exact t (reference P t.engine.env (.result op i)) (Reaches P (.result op i))
          (.completed r.1) := by
  refine wp_shippedConstant
    (Q := fun value t => EvalInv P exact t ∧ EvalRel s t ∧ AnswerOk P exact t
    (reference P t.engine.env (.result op i)) (Reaches P (.result op i)) (.completed value))
    (fun hnone => ?_) ?_
  · refine ⟨hs, EvalRelBy.refl s, .of_unknown fun hA _ => ?_⟩
    rw [reference_constant hA hm]
    rcases hattr : P.constantAttr op with _ | a | id
    · rfl
    · exact absurd hattr (hnone a)
    · rfl
  · intro a hattr v t hr
    obtain ⟨hg, hinv, hrel⟩ :=
      evalTheory_allows (e := .allocated v) (t := t) hs rfl rfl rfl rfl rfl rfl hr
    refine ⟨hg, hinv, hrel, .of_known ⟨List.mem_cons_self, Or.inr rfl⟩ fun hA => ?_⟩
    rw [reference_constant hA hm, hattr]
    rfl

end Methods

/-! ## Every place of the code -/

section Places

variable {s s' : State Op Blk σ APInt} {op : Op}

/-- The operation of a bound block is not entered. -/
theorem evalTheory_enter (hs : (evalTheory P exact).Inv s) (hact : op ∉ s.engine.active)
    (hr : (evalTheory P exact).contract.rely ((s.enter op).note (.entered op))) :
    (evalTheory P exact).contract.guar ((s.enter op).note (.entered op)) ∧
      (evalTheory P exact).Inv ((s.enter op).note (.entered op)) ∧
      (evalTheory P exact).Within ((s.enter op).note (.entered op)) op := by
  have hinv : EvalInv P exact ((s.enter op).note (.entered op)) :=
    hs.of_eq hr rfl rfl rfl rfl rfl (fun b hb => (hs.frames.loops b hb).imp fun o ho =>
      ⟨Finset.mem_insert_of_mem ho.1, ho.2⟩) rfl
  refine ⟨hinv.guar (e := .entered op) rfl (by simp [Event.isStore]) (by simp), hinv,
    Finset.mem_insert_self op _, fun b hb hmem => ?_⟩
  -- The loop of a bound block is being evaluated already.
  obtain ⟨o, ho, hbody⟩ := hs.frames.loops b hmem
  exact hact (Program.loopBody_inj hb hbody ▸ ho)

/-- An answer stays right when its operation is left. -/
theorem evalTheory_leave {i : ℕ} {a : Answer APInt} (hs : (evalTheory P exact).Inv s)
    (hact : op ∉ s.engine.active)
    (hd : (evalTheory P exact).Does op ((s.enter op).note (.entered op)) s')
    (hout : (evalTheory P exact).Done s' op i a)
    (hr : (evalTheory P exact).contract.rely ((s'.leave op).note (.left op))) :
    (evalTheory P exact).contract.guar ((s'.leave op).note (.left op)) ∧
      (evalTheory P exact).Inv ((s'.leave op).note (.left op)) ∧
      (evalTheory P exact).Rel s ((s'.leave op).note (.left op)) ∧
      (evalTheory P exact).Ans ((s'.leave op).note (.left op)) (.result op i) a := by
  have hactive : s'.engine.active = Insert.insert op s.engine.active := hd.own.active
  have hleft : ((s'.leave op).note (.left op)).engine.active = s.engine.active := by
    simp [State.note, State.leave, hactive, hact]
  have hblocks : s'.engine.blocks = s.engine.blocks := hd.own.blocks
  have hinv : EvalInv P exact ((s'.leave op).note (.left op)) := by
    refine hd.inv.of_eq hr rfl rfl rfl rfl rfl (fun b hb => ?_) rfl
    rw [hleft]
    exact hs.frames.loops b (hblocks ▸ hb)
  refine ⟨hinv.guar (e := .left op) rfl (by simp [Event.isStore]) (by simp), hinv,
    ⟨hleft, hblocks, hd.own.bindings, hd.own.freezes, ?_⟩, ?_⟩
  · have hwork := hd.own.work
    simp only [State.note, work_cons (e := Event.entered op) rfl,
      work_cons (e := Event.left op) rfl] at hwork ⊢
    exact hwork
  · exact AnswerOk.leave hout (by rw [hleft, hactive]) rfl (List.Subset.refl _) rfl

/-- An entry is appended while no block is bound. -/
theorem evalTheory_appendEntry {s₀ : State Op Blk σ APInt} {key : HashCode}
    {l : List (Answer APInt)} (hs : (evalTheory P exact).Inv s)
    (hw : (evalTheory P exact).Within s op) (hl : (evalTheory P exact).Results s op l)
    (hlen : l.length = P.numResults op) (hfreeze : s₀.engine.freezes = 0)
    (hown : (evalTheory P exact).Own op s₀ s) :
    wp (evalTheory P exact).contract (appendEntry (shipped P H mem) op key l) s fun e s' =>
      (evalTheory P exact).Inv s' ∧
        (evalTheory P exact).Own op s s' ∧
        (evalTheory P exact).Within s' op ∧
        (evalTheory P exact).Kept s' op e := by
  have hframes : s.engine.frames = [] := by
    by_contra hne
    have := hs.frames.frozen hne
    rw [hown.freezes, hfreeze] at this
    exact lt_irrefl 0 this
  have hlen : l.length = P.numResults op := hlen
  refine wp_bind (wp_read (wp_bind (wp_record fun hr => ?_)))
  rw [hlen] at hr ⊢
  obtain ⟨hallow, hentry⟩ := evalTheory_append hs op key hframes
  obtain ⟨hg, hinv, hrel⟩ := hallow hr
  have hcont := Continues.append op key (P.numResults op) s
  have hl' : (evalTheory P exact).Results _ op l := ⟨hl.1, fun i a ha => by
    rw [hrel.env]
    exact (hl.2 i a ha).stable hrel.active hcont⟩
  refine ⟨hg, wp_bind (wp_mono (evalTheory_fill hinv hentry hframes hl') fun _ u hu => ?_)⟩
  have hrel' := EvalRelBy.trans hrel hu.2.1
  refine wp_pure ⟨hu.1, hrel', ⟨?_, fun b hb => ?_⟩, hentry.stable hu.2.1 hu.2.2⟩
  · rw [hrel'.active]
    exact hw.1
  · rw [hrel'.blocks]
    exact hw.2 b hb

end Places

/-- **The theory of the shipped models holds.** -/
theorem evalTheory_sound (hP : P.Verified) :
    (evalTheory P exact).Sound (shipped P H mem : Setup Op Blk σ APInt) where
  rel_refl := EvalRelBy.refl
  rel_trans a b c h h' := EvalRelBy.trans h h'
  own_of_rel _ _ _ h := h
  own_trans _ a b c h h' := EvalRelBy.trans h h'
  own_active _ _ _ h := h.active
  within_stable s s' op hm hw := by
    refine ⟨?_, fun b hb => ?_⟩
    · rw [hm.rel.active]; exact hw.1
    · rw [hm.rel.blocks]; exact hw.2 b hb
  unevaluated_stable _ _ _ _ _ _ := trivial
  running_stable _ _ _ _ _ _ := trivial
  missed_stable _ _ _ _ _ _ _ _ := trivial
  found_stable s s' op key n e hm _ h := h.stable hm.rel hm.continues
  kept_stable s s' op e hm _ h := h.stable hm.rel hm.continues
  results_stable s s' op l _ hd h := by
    refine ⟨h.1, fun i a ha => ?_⟩
    rw [hd.own.env]
    exact (h.2 i a ha).stable hd.own.active hd.continues
  unanswered _ _ _ _ _ := trivial
  memo_hit s v a hs _ ha := hs.memo_ok ha
  memo_add s s' v a hv hm ha _ _ := evalTheory_memoize hP hm.inv hv ha
  ans_memoized s v a hm ha := by
    change AnswerOk P exact _ (reference P _ v) (Reaches P v) a
    rw [EvalMoves.env hm]
    exact ha.moves hm
  arg s b i hs _ := hs.arg_ok b i
  invalid s op i _ hv hi := absurd hv (not_lt.mpr hi)
  constant s op i hm hs _ _ := evalTheory_constant hs hm
  cycle s op i model _ _ _ _ hact := .of_signal fun _ => ⟨op, hact, .refl⟩
  enter _ _ _ _ _ hs _ _ _ hact hr := evalTheory_enter hs hact hr
  leave _ _ _ _ _ hs _ _ hact hd hout hr := evalTheory_leave hs hact hd hout hr
  cacheable s op model ask hm _ hs _ _ := by
    rw [shippedModels_isCacheable hm]
    exact Prog.wp_run_ret ⟨hs, EvalRelBy.refl s, fun _ => trivial, fun _ => trivial,
      fun _ _ => trivial, by simp⟩
  hash s op model ask hm ha hs _ _ _ := by
    refine wp_mono (evalTheory_hash hP hm ⟨hs, ha⟩) fun r t ht =>
      ⟨ht.1.inv, ht.1.rel, fun _ _ => trivial, ?_⟩
    rintro st rfl i -
    exact .of_signal ht.2
  unevaluated_search _ _ _ _ _ := trivial
  searching s op key hs hw _ := evalTheory_noteOwn hs hw rfl rfl rfl trivial
  candidate_range _ _ _ _ _ _ _ := Or.inr rfl
  scan_length _ _ _ _ _ _ _ := Or.inl rfl
  own s op key n e entry hs hw _ _ he hop := by
    refine evalTheory_noteOwn hs hw rfl rfl rfl ⟨entry, he, ?_, fun _ _ => by rw [hop]⟩
    rw [hs.cache.slots e entry he, hop]
  shape s op key n e entry hs hw _ _ _ _ _ := evalTheory_noteOwn hs hw rfl rfl rfl trivial
  equivalent s op key n e entry model ask hm ha hs _ _ _ _ _ _ :=
    wp_mono (evalTheory_equivalent hP hm ⟨hs, ha⟩ entry.op) fun r t ht => ⟨ht.1.inv, ht.1.rel, ht.2⟩
  skipped s op key n e entry st hs hw _ _ _ _ _ _ := evalTheory_noteOwn hs hw rfl rfl rfl trivial
  different s op key n e entry hs hw _ _ _ _ _ _ := evalTheory_noteOwn hs hw rfl rfl rfl trivial
  matching s op key n e entry hs hw _ _ he _ hlen hsame :=
    evalTheory_noteOwn hs hw rfl rfl rfl ⟨entry, he, hlen, hsame rfl⟩
  exhausted s op i cached _ _ _ _ _ h0 := .of_signal h0
  charge s op i cached hs hw _ _ hc h0 hr := by
    obtain ⟨hg, hnext⟩ := evalTheory_charge hs op h0 hr
    refine ⟨hg, fun hr' => ?_⟩
    obtain ⟨hg', hinv, hrel⟩ := hnext hr'
    refine ⟨hg', hinv, hrel, hw, ?_, trivial⟩
    rcases cached with _ | ⟨key, _ | e, n⟩
    · trivial
    · trivial
    · exact hc.1
  evaluates s op model ask cached hm ha hs hw hc := by
    refine wp_mono (evalTheory_evaluates hP hm ⟨hs, ha⟩ hw) fun l t ht =>
      ⟨ht.1.inv, ht.1.rel, ht.2, ?_⟩
    rcases cached with _ | ⟨key, _ | e, n⟩
    · trivial
    · trivial
    · exact EntryFor.stable hc ht.1.rel ht.1.continues
  count s op l _ _ hl hne := absurd hl.1 hne
  evaluated s op l cached hs hw _ hc _ _ hr := by
    obtain ⟨hg, hinv, hrel⟩ := evalTheory_note (e := .evaluated op l) hs rfl rfl rfl hr
    refine ⟨hg, hinv, hrel, hw, ?_, trivial⟩
    rcases cached with _ | ⟨key, _ | e, n⟩
    · trivial
    · trivial
    · exact EntryFor.stable hc hrel (.noted (by simp) s)
  evaluated_stable _ _ _ _ _ _ _ := trivial
  ready_stable s s' op cached hm _ hc := by
    rcases cached with _ | ⟨key, _ | e, n⟩
    · trivial
    · trivial
    · exact EntryFor.stable hc hm.rel hm.continues
  ready s op cached _ _ _ _ hc := by
    rcases cached with ⟨key, _ | e, n⟩
    · trivial
    · exact hc
  reuse s op key n e l hs _ _ _ := evalTheory_note hs rfl rfl rfl
  fill s₀ s op e l hs _ hk hl _ _ hfreeze hown := by
    have hframes : s.engine.frames = [] := by
      by_contra hne
      have := hs.frames.frozen hne
      rw [hown.freezes, hfreeze] at this
      exact lt_irrefl 0 this
    exact wp_mono (evalTheory_fill hs hk hframes hl) fun _ t ht => ⟨ht.1, ht.2.1⟩
  append _ _ _ _ _ _ hs hw _ _ hl hlen _ hfreeze hown :=
    evalTheory_appendEntry hs hw hl hlen hfreeze hown
  kept _ _ _ _ _ _ _ h := h
  kept_range _ _ _ _ _ _ _ _ := Or.inr rfl
  kept_slot s op e entry i a hs _ hk he hi := .of_slot hP hs hk he hi
  unstored _ _ _ _ _ _ _ _ _ _ := trivial
  unstored_stable _ _ _ _ _ _ _ _ := trivial
  result s op l i a _ _ hl ha _ := hl.2 i a ha
  memo_own s op i a hs _ ha hi _ _ := evalTheory_memoize hP hs hi ha
  hit s op key n e entry i a hs _ _ hk he hi := .of_slot hP hs hk he hi
  finish _ _ _ _ _ _ _ _ _ _ h := h

end MlirInterpreter
