import Mathlib.Algebra.Group.Int.Defs
import MlirInterpreter.Dialects.Arith
import MlirInterpreter.Engine.Compute

/-!
# The `scf.for` model, and the shipped models

The code of `SCFEval.cpp`.  A C++ `return` from inside a loop is an early exit of the corresponding
recursion: `queryKnown` is the loop over the control operands and the one over the initial values,
`queryYields` the loop over the yields, and `iterate` the loop over the iteration space.  The number
of iterations is bounded by the number of values the induction variable can take, because it only
grows.

`shippedModels` is what `registerArithEvalExternalModels`, `registerSCFEvalExternalModels` and
`registerBuiltinAttrEvalExternalModels` register, and `shipped` the engine over it.
-/

set_option autoImplicit false

namespace MlirInterpreter

namespace SCF

variable {Op Blk σ : Type} [DecidableEq Op] [DecidableEq Blk] (P : Program Op Blk)
  (H : HashFns Op Blk)

/-- Why the operands of a loop do not let it run. -/
inductive Exit
  | signal (status : Signal)
  | unknown

/-- Query values until one signals or is unknown. -/
def queryKnown : List (Value Op Blk) → ScopeM Op Blk σ APInt (Except Exit (List (EvalValue APInt)))
  | [] => return .ok []
  | value :: values => do
    match ← EvalScope.query value with
    | .signal status => return .error (.signal status)
    | .completed none => return .error .unknown
    | .completed (some known) =>
      match ← queryKnown values with
      | .error exit => return .error exit
      | .ok rest => return .ok (known :: rest)

/-- Query the yielded values until one signals. -/
def queryYields : List (Value Op Blk) → ScopeM Op Blk σ APInt (Except Signal (List (Answer APInt)))
  | [] => return .ok []
  | value :: values => do
    match ← EvalScope.query value with
    | .signal status => return .error status
    | .completed slot =>
      match ← queryYields values with
      | .error status => return .error status
      | .ok rest => return .ok (.completed slot :: rest)

/-- `iv.ult(ub)` or `iv.slt(ub)`. -/
def less (isUnsigned : Bool) (iv ub : APInt) : Bool :=
  if isUnsigned then iv.ult ub else iv.slt ub

/-- `iv.uadd_ov(step, overflow)` or `iv.sadd_ov(step, overflow)`. -/
def addOv (isUnsigned : Bool) (iv step : APInt) : APInt × Bool :=
  if isUnsigned then iv.uaddOv step else iv.saddOv step

/-- A step that isn't strictly positive is undefined. -/
def badStep (isUnsigned : Bool) (step : APInt) : Bool :=
  if isUnsigned then step.isZero else !step.isStrictlyPositive

/-- One answer for every result of `op`. -/
def everyResult (op : Op) (answer : Answer APInt) : List (Answer APInt) :=
  List.replicate (P.numResults op) answer

/-- The iterations from induction value `iv` on. -/
def iterate (op : Op) (body : Blk) (isUnsigned : Bool) (ub step : APInt) :
    (fuel : ℕ) → (iv : APInt) → (carried : List (Answer APInt)) →
      ScopeM Op Blk σ APInt (List (Answer APInt))
  | 0, _, _ => return everyResult P op .unknown
  | fuel + 1, iv, carried => do
    if less isUnsigned iv ub then
      -- Each iteration costs a step, so a loop whose body costs nothing still ends.
      if !(← EvalScope.declareCost) then
        return everyResult P op (.signal .exhausted)
      let induction ← EvalScope.allocate iv
      match ← EvalScope.withBinding body (.known induction :: carried)
          (queryYields (P.yieldedValues body)) with
      | .error status => return everyResult P op (.signal status)
      | .ok yielded =>
        let (next, overflow) := addOv isUnsigned iv step
        -- The value past the last iteration must fit the type.
        if overflow then
          return everyResult P op .unknown
        iterate op body isUnsigned ub step fuel next yielded
    else return carried

/-- `ForOpEval::evaluate`, for a loop with the operands `lb`, `ub`, `step` and `inits`. -/
def evaluateLoop (op : Op) (body : Blk) (isUnsigned : Bool) (lb ub step : Value Op Blk)
    (inits : List (Value Op Blk)) : ScopeM Op Blk σ APInt (List (Answer APInt)) := do
  match ← queryKnown [lb, ub, step] with
  | .ok [lb, ub, step] =>
    match ← queryKnown inits with
    | .ok carried =>
      if badStep isUnsigned step.payload then
        return everyResult P op .unknown
      -- Answers computed in an iteration can depend on its bindings, which cache keys don't
      -- include.
      EvalScope.withFreeze
        (iterate P op body isUnsigned ub.payload step.payload (2 ^ lb.payload.width) lb.payload
          (carried.map .known))
    | .error (.signal status) => return everyResult P op (.signal status)
    | .error .unknown => return everyResult P op .unknown
  | .error (.signal status) => return everyResult P op (.signal status)
  | _ => return everyResult P op .unknown

/-- `ForOpEval::evaluate`. -/
def evaluate (op : Op) (isUnsigned : Bool) : ScopeM Op Blk σ APInt (List (Answer APInt)) :=
  match P.operands op, P.loopBody op with
  | lb :: ub :: step :: inits, some body => evaluateLoop P op body isUnsigned lb ub step inits
  | _, _ => return everyResult P op .unknown

/-- `ForOpEval`, with the default cache key. -/
def forOpEval [Fintype Op] (op : Op) (isUnsigned : Bool) : OpModel Op Blk σ APInt where
  isCacheable := pure (.completed (P.isMemoryEffectFree op))
  getHash := getDefaultHash P H op
  isEquivalentTo := isDefaultEquivalent P op
  evaluate := evaluate P op isUnsigned

/-! ## The bound on the iterations -/

variable {P}

/-- The position of a value in the order a loop runs through. -/
def rank (isUnsigned : Bool) (iv : APInt) : ℕ :=
  if isUnsigned then iv.bits.toNat else ((2 * iv.bits.toInt + 2 ^ iv.width) / 2).toNat

theorem rank_lt (isUnsigned : Bool) (iv : APInt) : rank isUnsigned iv < 2 ^ iv.width := by
  cases isUnsigned
  · have h := BitVec.two_mul_toInt_lt (x := iv.bits)
    have hpos : 0 < 2 ^ iv.width := Nat.two_pow_pos _
    have hcast : ((2 ^ iv.width : ℕ) : ℤ) = 2 ^ iv.width := by push_cast; rfl
    simp only [rank, Bool.false_eq_true, if_false]
    omega
  · exact iv.bits.isLt

/-- An iteration that does not overflow goes up. -/
theorem rank_addOv {isUnsigned : Bool} {iv step : APInt} (hstep : badStep isUnsigned step = false)
    (hov : (addOv isUnsigned iv step).2 = false) :
    rank isUnsigned iv < rank isUnsigned (addOv isUnsigned iv step).1 := by
  cases isUnsigned
  · have hpos : 0 < step.bits.toInt := by simpa [badStep, APInt.isStrictlyPositive] using hstep
    have hsum : iv.bits.toInt + step.bits.toInt = (iv.add step).bits.toInt := by
      simpa [addOv, APInt.saddOv] using hov
    have hlow := BitVec.le_two_mul_toInt (x := iv.bits)
    have hcast : ((2 ^ iv.width : ℕ) : ℤ) = 2 ^ iv.width := by push_cast; rfl
    change ((2 * iv.bits.toInt + 2 ^ iv.width) / 2).toNat <
      ((2 * (iv.add step).bits.toInt + 2 ^ iv.width) / 2).toNat
    omega
  · have hpos : step.bits.toNat ≠ 0 := by simpa [badStep, APInt.isZero] using hstep
    have hlt : iv.bits.toNat + step.bits.toNat < 2 ^ iv.width := by
      simpa [addOv, APInt.uaddOv] using hov
    change iv.bits.toNat < (iv.bits + step.bits.setWidth iv.width).toNat
    rw [BitVec.toNat_add, BitVec.toNat_setWidth,
      Nat.mod_eq_of_lt (b := 2 ^ iv.width) (a := step.bits.toNat) (by omega),
      Nat.mod_eq_of_lt hlt]
    omega

omit [DecidableEq Op] [DecidableEq Blk] in
/-- **The bound on the iterations is never reached.** -/
theorem iterate_fuel {op : Op} {body : Blk} {isUnsigned : Bool} {ub step : APInt}
    (hstep : badStep isUnsigned step = false) {fuel : ℕ} {iv : APInt}
    {carried : List (Answer APInt)} (h : 2 ^ iv.width ≤ fuel + rank isUnsigned iv) :
    (iterate P op body isUnsigned ub step (fuel + 1) iv carried : ScopeM Op Blk σ APInt _) =
      iterate P op body isUnsigned ub step fuel iv carried := by
  induction fuel generalizing iv carried with
  | zero =>
    have := rank_lt isUnsigned iv
    omega
  | succ fuel ih =>
    rw [iterate, iterate]
    split
    · refine bind_congr fun charged => ?_
      split
      · rfl
      · refine bind_congr fun induction => bind_congr fun yielded => ?_
        rcases yielded with status | yielded
        · rfl
        · have hup : (addOv isUnsigned iv step).2 = false → rank isUnsigned iv <
              rank isUnsigned (addOv isUnsigned iv step).1 := rank_addOv hstep
          have hwidth : (addOv isUnsigned iv step).1.width = iv.width := by cases isUnsigned <;> rfl
          rcases hadd : addOv isUnsigned iv step with ⟨next, overflow⟩
          rw [hadd] at hup hwidth
          cases overflow with
          | true => rfl
          | false =>
            have := hup rfl
            refine ih ?_
            simp only at hwidth this
            rw [hwidth]
            omega
    · rfl

end SCF

/-! ## The shipped models -/

section Shipped

variable {Op Blk σ : Type} [DecidableEq Op] [DecidableEq Blk] [Fintype Op]

/-- `IntegerAttrEval`, which keeps the default `isCacheable`. -/
def integerAttrEval (value : APInt) : AttrModel APInt where
  isCacheable := false
  toEvalValue := some value

/-- The registered models. -/
def shippedModels (P : Program Op Blk) (H : HashFns Op Blk) : Models Op Blk σ APInt where
  op op := match P.kind op with
    | .addi _ => some (Arith.addIOpEval P H op)
    | .subi _ => some (Arith.subIOpEval P H op)
    | .muli _ => some (Arith.mulIOpEval P H op)
    | .scfFor isUnsigned => some (SCF.forOpEval P H op isUnsigned)
    | _ => none
  attr
    | .integer value => some (integerAttrEval value)
    | .other _ => none

/-- The engine with the shipped models. -/
def shipped (P : Program Op Blk) (H : HashFns Op Blk) (mem : Malloc) : Setup Op Blk σ APInt :=
  ⟨P, shippedModels P H, mem⟩

/-- The engine with the shipped models on `loopProgram`. -/
abbrev loopSetup : Setup (Fin 10) (Fin 2) Unit APInt := shipped loopProgram .numbered .next

/-- The engine with the shipped models on `sumProgram`. -/
abbrev sumSetup : Setup (Fin 5) (Fin 1) Unit APInt := shipped sumProgram .numbered .next

/-- The engine with the shipped models on `twinProgram`. -/
abbrev twinSetup : Setup (Fin 13) (Fin 3) Unit APInt := shipped twinProgram .numbered .next

end Shipped

end MlirInterpreter
