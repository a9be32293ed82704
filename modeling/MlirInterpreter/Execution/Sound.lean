import MlirInterpreter.Reference.Properties
import MlirInterpreter.Execution.Semantics
import MlirInterpreter.Evaluation.Queries

/-!
# Answers hold in every execution

A register is `Consistent` with an environment if it holds what the reference evaluation knows
there, wherever both know something.  Every finished run keeps that, in every environment that binds
only blocks around the task (`Exec.consistent`): this is what lets one induction speak of the
environment around a loop, where the loop ends, and of that of an iteration, where it yields.  From
it, every state a run passes through is consistent (`RunsThrough.consistent`), and an answer of the
interpreter is what executions compute (`answer_holds`).
-/

set_option autoImplicit false

namespace MlirInterpreter

open Reference
open SCF (integer Fits)

variable {Op Blk : Type} {P : Program Op Blk}

/-! ## Consistency -/

/-- They do not contradict each other. -/
def Compatible (a b : Option APInt) : Prop := ∀ x y, a = some x → b = some y → y = x

section

variable [DecidableEq Blk]

/-- No register contradicts the reference evaluation. -/
def Store.Consistent (P : Program Op Blk) (env : Env Blk) (σ : Store Op Blk) : Prop :=
  ∀ n v, Compatible (value P n env v) (σ v)

/-- The environment binds only blocks around `op`. -/
def Env.Around (P : Program Op Blk) (env : Env Blk) (op : Op) : Prop :=
  ∀ b i, env b i ≠ none → P.depth (P.parentRegion b).op < P.depth op

/-- The environment binds only blocks around the task. -/
def Task.Under (P : Program Op Blk) (env : Env Blk) : Task Op Blk → Prop
  | .op o => env.Around P o
  | .ops os => ∀ o ∈ os, env.Around P o
  | .blocks o => env.Around P o
  | .iterations o _ body _ _ _ _ => env.Around P o ∧ P.loopBody o = some body

/-- If the reference evaluation knows a result of a loop, it gets to the same iteration, and knows
nothing else of the carried values. -/
def Task.InStep (P : Program Op Blk) (env : Env Blk) : Task Op Blk → Prop
  | @Task.iterations _ _ o isUnsigned body w ub step iv carried =>
    ∀ n i x, opResult P (value P n) env o i = some x → ∃ fuel c r,
      List.Forall₂ Compatible c carried ∧
      iterate isUnsigned ⟨w, ub⟩ ⟨w, step⟩ (yields P (value P n) env body) fuel ⟨w, iv⟩ c = some r ∧
      r[i]? = some (some x)
  | _ => True

theorem Compatible.none_left (b : Option APInt) : Compatible none b := fun _ _ h => by simp at h

theorem Compatible.none_right (a : Option APInt) : Compatible a none := fun _ _ _ h => by simp at h

theorem Compatible.refl (a : Option APInt) : Compatible a a := fun _ _ h h' => by simp_all

/-- Bound and written together. -/
theorem Compatible.getElem? {l l' : List (Option APInt)} (h : List.Forall₂ Compatible l l')
    (i : ℕ) : Compatible (l[i]?).join (l'[i]?).join := by
  induction h generalizing i with
  | nil => exact .none_left _
  | cons h _ ih => cases i with
    | zero => simpa using h
    | succ i => simpa using ih i

theorem Store.Consistent.empty (env : Env Blk) : Store.empty.Consistent P env :=
  fun _ _ => .none_right _

theorem Store.Consistent.map {env : Env Blk} {σ : Store Op Blk} (h : σ.Consistent P env) (n : ℕ)
    (vs : List (Value Op Blk)) :
    List.Forall₂ Compatible (vs.map (value P n env)) (vs.map σ) := by
  rw [List.forall₂_map_left_iff, List.forall₂_map_right_iff, List.forall₂_same]
  exact fun v _ => h n v

variable [DecidableEq Op]

theorem Store.Consistent.setResults {env : Env Blk} {σ : Store Op Blk} (h : σ.Consistent P env)
    {op : Op} {values : List (Option APInt)}
    (hv : ∀ n i, Compatible (opResult P (value P n) env op i) (values[i]?).join) :
    (σ.setResults op values).Consistent P env := by
  intro n v
  cases v with
  | arg b i => exact h n _
  | result o i =>
    rw [Store.setResults]
    split
    · next ho =>
      subst ho
      cases n with
      | zero => exact .none_left _
      | succ n => exact hv n i
    · exact h n _

omit [DecidableEq Op] in
/-- The arguments of a block no environment knows of. -/
theorem Store.Consistent.setArgs {env : Env Blk} {σ : Store Op Blk} (h : σ.Consistent P env)
    {b : Blk} (hb : ∀ i, env b i = none) (args : List (Option APInt)) :
    (σ.setArgs b args).Consistent P env := by
  intro n v
  cases v with
  | result o i => exact h n _
  | arg c i =>
    rw [Store.setArgs]
    split
    · next hc =>
      subst hc
      have hv : value P n env (.arg c i) = none := by rw [value]; exact hb i
      rw [hv]
      exact .none_left _
    · exact h n _

theorem Store.Consistent.leave {env : Env Blk} {σ : Store Op Blk} (h : σ.Consistent P env)
    (r : Region Op) : (σ.leave P r).Consistent P env := by
  intro n v
  rw [Store.leave]
  split
  · split
    · exact .none_right _
    · exact h n v
  · exact h n v

/-- What an iteration starts with is consistent with the environment that binds its arguments: what
depends on them has been forgotten. -/
theorem Store.Consistent.enterIteration (hP : P.Verified) {env : Env Blk} {σ : Store Op Blk}
    (h : σ.Consistent P env) (body : Blk) (iv : APInt) {c carried : List (Option APInt)}
    (hc : List.Forall₂ Compatible c carried) :
    (enterIteration P σ body iv carried).Consistent P (env.bind body (some iv :: c)) := by
  -- Outside of the body the environments agree.
  have houtside : ∀ n v y, σ.leave P (P.parentRegion body) v = some y →
      value P n (env.bind body (some iv :: c)) v = value P n env v ∧ σ v = some y := by
    intro n v y hy
    have hnot : ¬ ∃ r, P.valueRegion v = some r ∧ P.Inside (P.parentRegion body) r := by
      rintro ⟨r, hr, hin⟩
      simp [Store.leave, hr, Program.isAncestor_iff.mpr hin] at hy
    refine ⟨value_congr n fun b hb i => ?_, ?_⟩
    · rw [Env.bind, if_neg]
      rintro rfl
      exact hnot (hb.inside hP)
    · rw [Store.leave] at hy
      split at hy
      · split at hy
        · simp at hy
        · exact hy
      · exact hy
  intro n v
  cases v with
  | result o i =>
    intro x y hx hy
    obtain ⟨heq, hσ⟩ := houtside n (.result o i) y hy
    exact h n _ x y (heq ▸ hx) hσ
  | arg b i =>
    rw [MlirInterpreter.enterIteration, Store.setArgs]
    split
    · next hb =>
      subst hb
      have hv : value P n (env.bind b (some iv :: c)) (.arg b i) = ((some iv :: c)[i]?).join := by
        rw [value, Env.bind, if_pos rfl]
      rw [hv]
      exact Compatible.getElem? (.cons (.refl _) hc) i
    · intro x y hx hy
      obtain ⟨heq, hσ⟩ := houtside n (.arg b i) y hy
      exact h n _ x y (heq ▸ hx) hσ

end

/-! ## Where an environment is bound -/

theorem Env.Around.empty (op : Op) : Env.Around P Env.empty op := fun _ _ h => absurd rfl h

/-- An environment around an operation does not know its blocks. -/
theorem Env.Around.eq_none {env : Env Blk} {op : Op} (h : env.Around P op) {b : Blk}
    (hb : (P.parentRegion b).op = op) (i : ℕ) : env b i = none := by
  by_contra hne
  have := h b i hne
  rw [hb] at this
  exact absurd this (lt_irrefl _)

/-- What is around an operation is around the operations in it. -/
theorem Env.Around.inside {env : Env Blk} {op : Op} (h : env.Around P op) {b : Blk}
    (hb : (P.parentRegion b).op = op) : (Task.ops (P.ops b)).Under P env := by
  intro o ho c i hne
  have hdepth := P.depth_lt o b ((P.mem_ops_iff o b).mp ho)
  rw [hb] at hdepth
  exact (h c i hne).trans hdepth

theorem Env.Around.bind [DecidableEq Blk] {env : Env Blk} {op : Op} (h : env.Around P op) {b : Blk}
    (hb : (P.parentRegion b).op = op) (args : List (Option APInt)) :
    (Task.ops (P.ops b)).Under P (env.bind b args) := by
  intro o ho c i hne
  rw [Env.bind] at hne
  split at hne
  · next hc =>
    subst hc
    exact P.depth_lt o c ((P.mem_ops_iff o c).mp ho)
  · exact h.inside hb o ho c i hne

theorem Program.op_of_mem_region {op : Op} {r : List Blk} {b : Blk} (hr : r ∈ P.regions op)
    (hb : b ∈ r) : (P.parentRegion b).op = op := by
  obtain ⟨i, hi⟩ := List.mem_iff_getElem?.mp hr
  have hmem : (r, i) ∈ (P.regions op).zipIdx := List.mk_mem_zipIdx_iff_getElem?.mpr hi
  rw [P.region_of_mem op (r, i) hmem b hb]

theorem Program.op_of_loopBody {op : Op} {b : Blk} (h : P.loopBody op = some b) :
    (P.parentRegion b).op = op := by
  rw [Program.parentRegion_of_loopBody h]

/-! ## What the machine computes -/

theorem integer_less {isUnsigned : Bool} {w : ℕ} {iv ub : BitVec w} :
    SCF.less isUnsigned ⟨w, iv⟩ ⟨w, ub⟩ = true ↔ integer isUnsigned iv < integer isUnsigned ub := by
  rw [SCF.less_eq, decide_eq_true_eq]

theorem addOv_fst_eq {isUnsigned : Bool} {w : ℕ} (iv step : BitVec w) :
    (SCF.addOv isUnsigned ⟨w, iv⟩ ⟨w, step⟩).1 = ⟨w, iv + step⟩ := by
  cases isUnsigned <;> simp [SCF.addOv, APInt.uaddOv, APInt.saddOv, APInt.add]

theorem addOv_snd_eq {isUnsigned : Bool} {w : ℕ} (iv step : BitVec w) :
    (SCF.addOv isUnsigned ⟨w, iv⟩ ⟨w, step⟩).2 = true ↔
      ¬ Fits isUnsigned w (integer isUnsigned iv + integer isUnsigned step) := by
  have hiv : Fits isUnsigned w (integer isUnsigned iv) := SCF.fits_integer iv
  have h := SCF.addOv_snd hiv step
  rw [SCF.ofInt_integer] at h
  rw [h, decide_eq_true_eq]

theorem machineArith_compatible {name : OpName} {fn : (w : ℕ) → BitVec w → BitVec w → BitVec w}
    (h : machineArith name = some fn) {w : ℕ} {x y : BitVec w} {a b : Option APInt}
    (ha : Compatible a (some ⟨w, x⟩)) (hb : Compatible b (some ⟨w, y⟩)) :
    Compatible (ofArith name a b) (some ⟨w, fn w x y⟩) := by
  have ha' : ∀ z, a = some z → z = ⟨w, x⟩ := fun z hz => (ha z _ hz rfl).symm
  have hb' : ∀ z, b = some z → z = ⟨w, y⟩ := fun z hz => (hb z _ hz rfl).symm
  have hboth : ∀ f : APInt → APInt → APInt, ∀ g : (w : ℕ) → BitVec w → BitVec w → BitVec w,
      f ⟨w, x⟩ ⟨w, y⟩ = ⟨w, g w x y⟩ → Compatible (both f a b) (some ⟨w, g w x y⟩) := by
    rintro f g hfg z _ hz ⟨⟩
    cases a with
    | none => simp [both] at hz
    | some a =>
      cases b with
      | none => simp [both] at hz
      | some b =>
        rw [both, ha' a rfl, hb' b rfl, hfg] at hz
        exact Option.some.inj hz
  cases name <;> simp only [machineArith, reduceCtorEq, Option.some.injEq] at h <;> subst h
  · exact hboth APInt.add (fun _ x y => x + y) (by simp [APInt.add])
  · exact hboth APInt.sub (fun _ x y => x - y) (by simp [APInt.sub])
  · -- A known zero decides the product, whatever the other operand is.
    rw [ofArith, product]
    split
    · next hz =>
      rintro z _ rfl ⟨⟩
      obtain rfl := ha' z rfl
      have hx : x = 0 := BitVec.eq_of_toNat_eq (by simpa [isZero, APInt.isZero] using hz)
      simp [hx]
    · split
      · next hz =>
        rintro z _ rfl ⟨⟩
        obtain rfl := hb' z rfl
        have hy : y = 0 := BitVec.eq_of_toNat_eq (by simpa [isZero, APInt.isZero] using hz)
        simp [hy]
      · exact hboth APInt.mul (fun _ x y => x * y) (by simp [APInt.mul])

variable [DecidableEq Blk]

theorem opResult_foreign {V : Env Blk → Value Op Blk → Option APInt} {env : Env Blk} {op : Op}
    (h : (P.kind op).isForeign = true) (i : ℕ) : opResult P V env op i = none := by
  rw [opResult]
  split <;> simp_all [OpKind.isForeign]

/-- Where the reference evaluation knows a result of a loop, it knows its control and initial
values, and the machine starts with the same. -/
theorem Store.Consistent.inStep {env : Env Blk} {σ : Store Op Blk} (h : σ.Consistent P env)
    {op : Op} {isUnsigned : Bool} {lb ub step : Value Op Blk} {inits : List (Value Op Blk)}
    {body : Blk} {w : ℕ} {l u s : BitVec w} (hk : P.kind op = .scfFor isUnsigned)
    (ho : P.operands op = lb :: ub :: step :: inits) (hb : P.loopBody op = some body)
    (hl : σ lb = some ⟨w, l⟩) (hu : σ ub = some ⟨w, u⟩) (hs : σ step = some ⟨w, s⟩) :
    (Task.iterations op isUnsigned body u s l (inits.map σ)).InStep P env := by
  intro n i x hx
  simp only [opResult, hk, ho, hb] at hx
  obtain ⟨r, hr, hx⟩ := Option.bind_eq_some_iff.mp hx
  unfold loop at hr
  split at hr
  · next a b c ha hb' hc =>
    obtain rfl := h n lb _ _ ha hl
    obtain rfl := h n ub _ _ hb' hu
    obtain rfl := h n step _ _ hc hs
    split at hr
    · exact ⟨_, _, r, h.map n inits, hr, by simpa [Option.join_eq_some_iff] using hx⟩
    · simp at hr
  · simp at hr

/-- A loop with an undefined step has no known result. -/
theorem Store.Consistent.badStep {env : Env Blk} {σ : Store Op Blk} (h : σ.Consistent P env)
    {op : Op} {isUnsigned : Bool} {lb ub step : Value Op Blk} {inits : List (Value Op Blk)}
    {w : ℕ} {s : BitVec w} (hk : P.kind op = .scfFor isUnsigned)
    (ho : P.operands op = lb :: ub :: step :: inits) (hs : σ step = some ⟨w, s⟩)
    (hbad : integer isUnsigned s ≤ 0) (n i : ℕ) : opResult P (value P n) env op i = none := by
  simp only [opResult, hk, ho]
  split
  · rw [Option.bind_eq_none_iff]
    intro r hr
    unfold loop at hr
    split at hr
    · next a b c ha hb hc =>
      obtain rfl := h n step _ _ hc hs
      simp [SCF.badStep_eq, hbad] at hr
    · simp at hr
  · rfl

/-- The next iteration is in step, if the body was consistent with what this one binds. -/
theorem inStep_next {env : Env Blk} {σ₁ : Store Op Blk} {op : Op} {isUnsigned : Bool} {body : Blk}
    {w : ℕ} {ub step iv : BitVec w} {carried : List (Option APInt)}
    (hless : integer isUnsigned iv < integer isUnsigned ub)
    (hin : (Task.iterations op isUnsigned body ub step iv carried).InStep P env)
    (hbody : ∀ c, List.Forall₂ Compatible c carried →
      σ₁.Consistent P (env.bind body (some ⟨w, iv⟩ :: c))) :
    (Task.iterations op isUnsigned body ub step (iv + step)
      ((P.yieldedValues body).map σ₁)).InStep P env := by
  intro n i x hx
  obtain ⟨fuel, c, r, hc, hr, hri⟩ := hin n i x hx
  cases fuel with
  | zero => simp [iterate] at hr
  | succ fuel =>
    rw [iterate, if_pos (integer_less.mpr hless)] at hr
    split at hr
    · simp at hr
    · rw [addOv_fst_eq] at hr
      exact ⟨fuel, _, r, (hbody c hc).map n _, hr, hri⟩

/-! ## Executions -/

variable [DecidableEq Op]

/-- **A finished run keeps the registers consistent**, in every environment around the task. -/
theorem Exec.consistent (hP : P.Verified) {t : Task Op Blk} {σ σ' : Store Op Blk}
    (h : Exec P t σ σ') : ∀ env : Env Blk, t.Under P env → t.InStep P env → σ.Consistent P env →
      σ'.Consistent P env := by
  induction h with
  | @constant σ op id a hk =>
    intro env _ _ hσ
    refine hσ.setResults fun n i x y hx hy => ?_
    cases i with
    | zero => simp_all [opResult]
    | succ i => simp at hy
  | @arith σ op l r fn w x y hk ho hl hr =>
    intro env _ _ hσ
    refine hσ.setResults fun n i => ?_
    have ha : P.isArith op = true := by
      cases hkind : P.kind op <;> simp_all [machineArith, Program.isArith, OpKind.name]
    rw [opResult_arith ho ha]
    cases i with
    | zero => exact machineArith_compatible hk (hl ▸ hσ n l) (hr ▸ hσ n r)
    | succ i => exact .none_right _
  | loop hk ho hb hl hu hs _ ih =>
    exact fun env hu' _ hσ => ih env ⟨hu', hb⟩ (hσ.inStep hk ho hb hl hu hs) hσ
  | badStep values hk ho hs hbad =>
    exact fun env _ _ hσ => hσ.setResults fun n i => by
      rw [hσ.badStep hk ho hs hbad]
      exact .none_left _
  | foreign values hk _ ih =>
    exact fun env hu _ hσ => (ih env hu trivial hσ).setResults fun n i => by
      rw [opResult_foreign hk]
      exact .none_left _
  | nil => exact fun _ _ _ hσ => hσ
  | cons _ _ ih ih' =>
    intro env hu _ hσ
    exact ih' env (fun o ho => hu o (List.mem_cons_of_mem _ ho)) trivial
      (ih env (hu _ List.mem_cons_self) trivial hσ)
  | done => exact fun _ _ _ hσ => hσ
  | block args hr hb _ _ ih ih' =>
    intro env hu _ hσ
    have hop := Program.op_of_mem_region hr hb
    exact ih' env hu trivial (ih env (hu.inside hop) trivial (hσ.setArgs (hu.eq_none hop) args))
  | @exit σ op isUnsigned body w ub step iv carried hless =>
    intro env _ hin hσ
    refine hσ.setResults fun n i x y hx hy => ?_
    obtain ⟨fuel, c, r, hc, hr, hri⟩ := hin n i x hx
    cases fuel with
    | zero => simp [iterate] at hr
    | succ fuel =>
      rw [iterate, if_neg (by rwa [integer_less])] at hr
      obtain rfl := Option.some.inj hr
      exact Compatible.getElem? hc i x y (by rw [hri]; rfl) hy
  | @iteration σ σ₁ σ₂ op isUnsigned body w ub step iv carried hless _ _ ihb ihr =>
    intro env hu hin hσ
    have hop := Program.op_of_loopBody hu.2
    have houter : σ₁.Consistent P env := ihb env (hu.1.inside hop) trivial
      ((hσ.leave _).setArgs (hu.1.eq_none hop) _)
    -- The body once more, in the environment of the reference evaluation.
    have hinner : ∀ c, List.Forall₂ Compatible c carried →
        σ₁.Consistent P (env.bind body (some ⟨w, iv⟩ :: c)) := fun c hc =>
      ihb _ (hu.1.bind hop _) trivial (hσ.enterIteration hP body _ hc)
    exact ihr env hu (inStep_next hless hin hinner) houter
  | @overflow σ σ₁ op isUnsigned body w ub step iv carried values hless hov _ ihb =>
    intro env hu hin hσ
    have hop := Program.op_of_loopBody hu.2
    have houter : σ₁.Consistent P env := ihb env (hu.1.inside hop) trivial
      ((hσ.leave _).setArgs (hu.1.eq_none hop) _)
    refine houter.setResults fun n i x y hx _ => ?_
    obtain ⟨fuel, c, r, hc, hr, hri⟩ := hin n i x hx
    cases fuel with
    | zero => simp [iterate] at hr
    | succ fuel =>
      rw [iterate, if_pos (integer_less.mpr hless), if_pos ((addOv_snd_eq iv step).mpr hov)] at hr
      simp at hr

/-- A task, its state, and what is known of both in an environment. -/
structure InOrder (P : Program Op Blk) (env : Env Blk) (c : Task Op Blk × Store Op Blk) : Prop where
  under : c.1.Under P env
  inStep : c.1.InStep P env
  consistent : c.2.Consistent P env

/-- What a task gets to is in order if the task was. -/
theorem GetsTo.inOrder (hP : P.Verified) {env : Env Blk} {c c' : Task Op Blk × Store Op Blk}
    (h : GetsTo P c c') (hc : InOrder P env c) : InOrder P env c' := by
  obtain ⟨hu, hin, hσ⟩ := hc
  cases h with
  | loop hk ho hb hl hu' hs => exact ⟨⟨hu, hb⟩, hσ.inStep hk ho hb hl hu' hs, hσ⟩
  | foreign hk => exact ⟨hu, trivial, hσ⟩
  | first => exact ⟨hu _ List.mem_cons_self, trivial, hσ⟩
  | rest hrun =>
    exact ⟨fun o ho => hu o (List.mem_cons_of_mem _ ho), trivial,
      hrun.consistent hP env (hu _ List.mem_cons_self) trivial hσ⟩
  | block args hr hb =>
    have hop := Program.op_of_mem_region hr hb
    exact ⟨hu.inside hop, trivial, hσ.setArgs (hu.eq_none hop) args⟩
  | blocks args hr hb hrun =>
    have hop := Program.op_of_mem_region hr hb
    exact ⟨hu, trivial,
      hrun.consistent hP env (hu.inside hop) trivial (hσ.setArgs (hu.eq_none hop) args)⟩
  | body _ =>
    have hop := Program.op_of_loopBody hu.2
    exact ⟨hu.1.inside hop, trivial, (hσ.leave _).setArgs (hu.1.eq_none hop) _⟩
  | iterations hless hrun =>
    have hop := Program.op_of_loopBody hu.2
    refine ⟨hu, inStep_next hless hin fun c hc => ?_, ?_⟩
    · exact hrun.consistent hP _ (hu.1.bind hop _) trivial (hσ.enterIteration hP _ _ hc)
    · exact hrun.consistent hP env (hu.1.inside hop) trivial
        ((hσ.leave _).setArgs (hu.1.eq_none hop) _)

/-- **Every state a run passes through is consistent.** -/
theorem RunsThrough.consistent (hP : P.Verified) {op : Op} {τ : Store Op Blk}
    (h : RunsThrough P op τ) : τ.Consistent P Env.empty := by
  obtain ⟨t, σ, hrun, hτ⟩ := h
  have horder : InOrder P Env.empty (t, σ) := by
    generalize hc : (t, σ) = c at hrun
    clear hc
    induction hrun with
    | refl => exact ⟨Env.Around.empty op, trivial, .empty _⟩
    | tail _ hstep ih => exact hstep.inOrder hP ih
  rcases hτ with rfl | hexec
  · exact horder.consistent
  · exact hexec.consistent hP _ horder.under horder.inStep horder.consistent

/-! ## The interpreter -/

section

variable {σ : Type} [Fintype Op] {H : HashFns Op Blk} {mem : Malloc}
  {past : List (State Op Blk σ APInt)} {s : State Op Blk σ APInt}

/-- **An answer of the interpreter holds in every execution**: whatever queries and clears came
before and whatever the query was allowed to cost, a value it finds is the value the register has
whenever it has one, in every run of every operation. -/
theorem answer_holds (hP : P.Verified) (hA : P.Acyclic) (h : History (shipped P H mem) past s)
    (engine budget : ℕ) {value : Value Op Blk} (hv : P.Valid value) {v : EvalValue APInt}
    {outcome : CacheOutcome} {s' : State Op Blk σ APInt}
    (hq : (query (shipped P H mem) engine budget value s).outcome = .ok ((.known v, outcome), s'))
    (op : Op) {τ : Store Op Blk} (hτ : RunsThrough P op τ) {y : APInt} (hy : τ value = some y) :
    y = v.payload := by
  obtain ⟨-, a, outcome', s'', hr, hok⟩ := query_ends False hP h engine budget hv (by simp)
  rw [hr] at hq
  obtain ⟨⟨rfl, -⟩, -⟩ : (a = .known v ∧ outcome' = outcome) ∧ s'' = s' := by simpa using hq
  exact hτ.consistent hP _ value _ y ((hok.agrees hA).known v rfl) hy

end

theorem exec_addi {P : Program Op Blk} {σ : Store Op Blk} {op : Op} {l r : Value Op Blk} {w : ℕ}
    {x y : BitVec w} (hk : (P.kind op).name = .addi) (ho : P.operands op = [l, r])
    (hl : σ l = some ⟨w, x⟩) (hr : σ r = some ⟨w, y⟩) :
    Exec P (.op op) σ (σ.setResults op [some ⟨w, x + y⟩]) := by
  have hfn : machineArith (P.kind op).name = some fun _ x y => x + y := by rw [hk]; rfl
  exact .arith hfn ho hl hr

theorem exec_muli {P : Program Op Blk} {σ : Store Op Blk} {op : Op} {l r : Value Op Blk} {w : ℕ}
    {x y : BitVec w} (hk : (P.kind op).name = .muli) (ho : P.operands op = [l, r])
    (hl : σ l = some ⟨w, x⟩) (hr : σ r = some ⟨w, y⟩) :
    Exec P (.op op) σ (σ.setResults op [some ⟨w, x * y⟩]) := by
  have hfn : machineArith (P.kind op).name = some fun _ x y => x * y := by rw [hk]; rfl
  exact .arith hfn ho hl hr

/-- The body of the loop of `loopProgram`. -/
theorem exec_loopProgram_body (σ : Store (Fin 10) (Fin 2)) (a : BitVec 64)
    (ha : σ (.arg 1 1) = some ⟨64, a⟩) (h1 : σ (.result 2 0) = some ⟨64, 1⟩)
    (h0 : σ (.result 0 0) = some ⟨64, 0⟩) :
    Exec loopProgram (.ops [4, 5, 6]) σ (((σ.setResults 4 [some ⟨64, a + 1⟩]).setResults 5
      [some ⟨64, (a + 1) * 0⟩]).setResults 6 []) :=
  .cons (exec_addi rfl rfl ha h1)
    (.cons (exec_muli rfl rfl rfl h0) (.cons (.foreign [] rfl .done) .nil))

/-- A run of the function of `loopProgram` to its end. -/
theorem runsThrough_loopProgram :
    ∃ τ, RunsThrough loopProgram 9 τ ∧ τ (.result 8 0) = some ⟨indexWidth, 3⟩ := by
  -- The loop runs its body three times.
  have hblock : ∃ τ, Exec loopProgram (.ops [0, 1, 2, 3, 7, 8]) (Store.empty.setArgs 0 []) τ ∧
      τ (.result 8 0) = some ⟨indexWidth, 3⟩ :=
    ⟨_, .cons (.constant rfl) (.cons (.constant rfl) (.cons (.constant rfl) (.cons
      (.loop (w := 64) (l := 0) (u := 3) (s := 1) rfl rfl rfl rfl rfl rfl
        (.iteration (by decide) (exec_loopProgram_body _ 0 rfl rfl rfl)
          (.iteration (by decide) (exec_loopProgram_body _ 1 rfl rfl rfl)
            (.iteration (by decide) (exec_loopProgram_body _ 2 rfl rfl rfl) (.exit (by decide))))))
      (.cons (exec_muli (w := 64) (x := 0) (y := 3) rfl rfl rfl rfl) (.cons
        (exec_addi (w := 64) (x := 0) (y := 3) rfl rfl rfl rfl) .nil))))), rfl⟩
  obtain ⟨τ, hτ, hy⟩ := hblock
  have hgets : Relation.ReflTransGen (GetsTo loopProgram) (.op 9, Store.empty)
      (.ops [0, 1, 2, 3, 7, 8], Store.empty.setArgs 0 []) :=
    .head (.foreign rfl) (.single (.block (r := [0]) (b := 0) [] (by decide) (by decide)))
  exact ⟨τ, ⟨_, _, hgets, .inr hτ⟩, hy⟩

/-- What the query finds in `loopProgram` is what running it computes. -/
theorem answer_holds_loopProgram : ∃ τ, RunsThrough loopProgram 9 τ ∧ ∃ y,
    τ (.result 8 0) = some y ∧ (query loopSetup 0 100 (.result 8 0) (State.init ())).value?.map
      (fun r => r.1.payload?) = some (some y) := by
  obtain ⟨τ, hτ, hy⟩ := runsThrough_loopProgram
  have hrun : (query loopSetup 0 100 (.result 8 0) (State.init ())).value?.map
      (fun r => r.1.payload?) = some (some ⟨indexWidth, 3⟩) := by decide +kernel
  obtain ⟨v, outcome, s', hr, hv⟩ := query_known hrun
  have hvalid : loopProgram.Valid (.result 8 0) := by decide
  have hholds := answer_holds loopProgram_verified loopProgram_acyclic (.init ()) 0 100 hvalid hr 9
    hτ hy
  exact ⟨τ, hτ, v.payload, hholds ▸ hy, hv ▸ hrun⟩

end MlirInterpreter
