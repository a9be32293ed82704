import MlirInterpreter.Dialects.SCF

/-!
# The reference evaluation

What a value of a program denotes when nothing is cached, nothing is memoized and nothing costs
anything.  `reference P env v` is the value of `v` where block arguments have the values of the
environment `env`; `none` is *unknown*.

`opResult` is one layer of it: what a result of an operation is, given what its operands are and,
for a loop, what its body yields in an environment that binds the body's arguments.  The definition
by recursion on a bound is only a means to make it executable.  In a program without use-def cycles
it is the solution of its equation, `reference_result`, which no longer mentions the bound.
-/

set_option autoImplicit false

namespace MlirInterpreter

/-- The values of block arguments; `none` is unknown, and so is an argument that is not bound. -/
abbrev Env (Blk : Type) := Blk → ℕ → Option APInt

/-- No block is bound. -/
def Env.empty {Blk : Type} : Env Blk := fun _ _ => none

/-- Bind the arguments of a block. -/
def Env.bind {Blk : Type} [DecidableEq Blk] (env : Env Blk) (b : Blk) (args : List (Option APInt)) :
    Env Blk :=
  fun c i => if c = b then (args[i]?).join else env c i

namespace Reference

/-- Known if both operands are. -/
def both (fn : APInt → APInt → APInt) : Option APInt → Option APInt → Option APInt
  | some a, some b => some (fn a b)
  | _, _ => none

/-- Is it known to be zero? -/
def isZero : Option APInt → Bool
  | some a => a.isZero
  | none => false

/-- A product is known if both operands are, or if one of them is a known zero. -/
def product (a b : Option APInt) : Option APInt :=
  if isZero a then a else if isZero b then b else both APInt.mul a b

/-- The iterations of a loop from induction value `iv` on: `body` maps the induction value and the
carried values to what the body yields.  Unknown if the value past the last iteration overflows. -/
def iterate (isUnsigned : Bool) (ub step : APInt)
    (body : APInt → List (Option APInt) → List (Option APInt)) :
    (fuel : ℕ) → (iv : APInt) → (carried : List (Option APInt)) → Option (List (Option APInt))
  | 0, _, _ => none
  | fuel + 1, iv, carried =>
    if SCF.less isUnsigned iv ub then
      if (SCF.addOv isUnsigned iv step).2 then none
      else iterate isUnsigned ub step body fuel (SCF.addOv isUnsigned iv step).1 (body iv carried)
    else some carried

/-- A loop: unknown on an unknown control or initial value and on a step that is not positive. -/
def loop (isUnsigned : Bool) (lb ub step : Option APInt) (inits : List (Option APInt))
    (body : APInt → List (Option APInt) → List (Option APInt)) : Option (List (Option APInt)) :=
  match lb, ub, step with
  | some lb, some ub, some step =>
    if inits.all Option.isSome && !SCF.badStep isUnsigned step then
      iterate isUnsigned ub step body (2 ^ lb.width) lb inits
    else none
  | _, _, _ => none

variable {Op Blk : Type} [DecidableEq Op] [DecidableEq Blk] (P : Program Op Blk)

/-- What the body of a loop yields on an induction value and carried values. -/
def yields (V : Env Blk → Value Op Blk → Option APInt) (env : Env Blk) (b : Blk) (iv : APInt)
    (carried : List (Option APInt)) : List (Option APInt) :=
  (P.yieldedValues b).map (V (env.bind b (some iv :: carried)))

/-- A result of an operation, where `V` evaluates the values it depends on. -/
def opResult (V : Env Blk → Value Op Blk → Option APInt) (env : Env Blk) (op : Op) (idx : ℕ) :
    Option APInt :=
  match P.kind op, P.operands op with
  | .constant _ (.integer a), _ => some a
  | .addi _, [l, r] => both APInt.add (V env l) (V env r)
  | .subi _, [l, r] => both APInt.sub (V env l) (V env r)
  | .muli _, [l, r] => product (V env l) (V env r)
  | .scfFor isUnsigned, lb :: ub :: step :: inits =>
    match P.loopBody op with
    | some body =>
      (loop isUnsigned (V env lb) (V env ub) (V env step) (inits.map (V env))
        (yields P V env body)).bind fun results => (results[idx]?).join
    | none => none
  | _, _ => none

/-- The value of `v`, where operations are nested in their users at most `n` deep. -/
def value : ℕ → Env Blk → Value Op Blk → Option APInt
  | _, env, .arg b i => env b i
  | 0, _, .result _ _ => none
  | n + 1, env, .result op idx => opResult P (value n) env op idx

end Reference

/-- The reference evaluation. -/
def reference {Op Blk : Type} [DecidableEq Op] [DecidableEq Blk] [Fintype Op] (P : Program Op Blk)
    (env : Env Blk) (v : Value Op Blk) : Option APInt :=
  Reference.value P (Fintype.card Op + 1) env v

section Equations

variable {Op Blk : Type} {P : Program Op Blk}

open Reference

theorem Program.loopBody_eq_some {op : Op} {b : Blk} :
    P.loopBody op = some b ↔ P.regions op = [[b]] := by
  rw [Program.loopBody]
  split
  · next c hc => simp [hc]
  · next h =>
    refine ⟨fun h' => by simp at h', fun h' => absurd h' (h b)⟩

/-- A result of an operation depends on its dependencies only. -/
theorem Reference.opResult_congr [DecidableEq Blk] {V V' : Env Blk → Value Op Blk → Option APInt}
    {env env' : Env Blk} {op : Op} {idx : ℕ} (ho : ∀ v ∈ P.operands op, V env v = V' env' v)
    (hy : P.isLoop op = true → ∀ b, P.loopBody op = some b → ∀ args, ∀ v ∈ P.yieldedValues b,
      V (env.bind b args) v = V' (env'.bind b args) v) :
    opResult P V env op idx = opResult P V' env' op idx := by
  simp only [opResult]
  split
  · rfl
  · next h => rw [ho _ (by simp [h]), ho _ (by simp [h])]
  · next h => rw [ho _ (by simp [h]), ho _ (by simp [h])]
  · next h => rw [ho _ (by simp [h]), ho _ (by simp [h])]
  · next hk h =>
    have hinits : ∀ inits : List (Value Op Blk), (∀ v ∈ inits, v ∈ P.operands op) →
        inits.map (V env) = inits.map (V' env') := fun inits hsub =>
      List.map_congr_left fun v hv => ho v (hsub v hv)
    cases hb : P.loopBody op with
    | none => rfl
    | some b =>
      have hyields : yields P V env b = yields P V' env' b := by
        funext iv carried
        exact List.map_congr_left fun v hv => hy (by simp [Program.isLoop, hk]) b hb _ v hv
      simp only
      rw [ho _ (by simp [h]), ho _ (by simp [h]), ho _ (by simp [h]),
        hinits _ (fun v hv => by simp [h, hv]), hyields]
  · rfl

section

variable [Fintype Op]

/-- How many operations an operation needs. -/
noncomputable def Program.height (P : Program Op Blk) (op : Op) : ℕ := by
  classical exact (Finset.univ.filter fun o => Relation.TransGen P.Demands op o).card

theorem Program.height_lt {op o : Op} (hP : P.Acyclic) (h : P.Demands op o) :
    P.height o < P.height op := by
  classical
  refine Finset.card_lt_card (Finset.ssubset_iff_of_subset (fun x hx => ?_) |>.mpr ⟨o, ?_, ?_⟩)
  · simp only [Finset.mem_filter, Finset.mem_univ, true_and] at hx ⊢
    exact .head h hx
  · simpa using Relation.TransGen.single h
  · simpa using hP o

theorem Program.height_le (op : Op) : P.height op ≤ Fintype.card Op := by
  classical exact Finset.card_le_univ _

/-- Induction along the use-def graph of a program without cycles. -/
theorem Program.Acyclic.induction (hP : P.Acyclic) {motive : Op → Prop}
    (h : ∀ op, (∀ o, P.Demands op o → motive o) → motive op) (op : Op) : motive op := by
  generalize hn : P.height op = n
  induction n using Nat.strong_induction_on generalizing op with
  | _ n ih => exact h op fun o ho => ih _ (hn ▸ Program.height_lt hP ho) o rfl

end

theorem Program.demands_of_operand {op o : Op} {i : ℕ}
    (h : Value.result o i ∈ P.operands op) : P.Demands op o :=
  ⟨i, List.mem_append_left _ h⟩

theorem Program.demands_of_yield {op o : Op} {i : ℕ} {b : Blk} (hl : P.isLoop op = true)
    (hb : P.loopBody op = some b) (h : Value.result o i ∈ P.yieldedValues b) : P.Demands op o :=
  ⟨i, List.mem_append_right _ (by simpa [hl, hb] using h)⟩

variable [DecidableEq Blk] [Fintype Op]

/-- The bound does not matter once it exceeds the height. -/
theorem Reference.value_eq (hP : P.Acyclic) (op : Op) (idx : ℕ) {n m : ℕ}
    (hn : P.height op < n) (hm : P.height op < m) (env : Env Blk) :
    value P n env (.result op idx) = value P m env (.result op idx) := by
  induction op using hP.induction generalizing idx n m env with
  | h op ih =>
    obtain ⟨n, rfl⟩ : ∃ k, n = k + 1 := ⟨n - 1, by omega⟩
    obtain ⟨m, rfl⟩ : ∃ k, m = k + 1 := ⟨m - 1, by omega⟩
    -- The values it depends on are of operations of a smaller height.
    have hdep : ∀ (env : Env Blk) v, (∀ o i, v = .result o i → P.Demands op o) →
        value P n env v = value P m env v := by
      intro env v hv
      cases v with
      | arg b i => cases n <;> cases m <;> rfl
      | result o i =>
        have hd := hv o i rfl
        have := Program.height_lt hP hd
        exact ih o hd i (by omega) (by omega) env
    rw [value, value]
    refine opResult_congr (fun v hv => hdep env v ?_) fun hl b hb args v hv => hdep _ v ?_
    · rintro o i rfl
      exact Program.demands_of_operand hv
    · rintro o i rfl
      exact Program.demands_of_yield hl hb hv

variable [DecidableEq Op]

@[simp] theorem reference_arg (env : Env Blk) (b : Blk) (i : ℕ) :
    reference P env (.arg b i) = env b i := rfl

/-- **The reference evaluation solves its equation.** -/
theorem reference_result (hP : P.Acyclic) (env : Env Blk) (op : Op) (idx : ℕ) :
    reference P env (.result op idx) = opResult P (reference P) env op idx := by
  have hdep : ∀ (env : Env Blk) v, (∀ o i, v = .result o i → P.Demands op o) →
      value P (Fintype.card Op) env v = reference P env v := by
    intro env v hv
    cases v with
    | arg b i => cases h : Fintype.card Op <;> rfl
    | result o i =>
      have h₁ := Program.height_lt hP (hv o i rfl)
      have h₂ := Program.height_le (P := P) op
      exact value_eq hP o i (by omega) (by omega) env
  rw [reference, value]
  refine opResult_congr (fun v hv => hdep env v ?_) fun hl b hb args v hv => hdep _ v ?_
  · rintro o i rfl
    exact Program.demands_of_operand hv
  · rintro o i rfl
    exact Program.demands_of_yield hl hb hv

end Equations

end MlirInterpreter
