import Mathlib.Algebra.Group.Nat.Defs
import MlirInterpreter.OperationEquivalence
import MlirInterpreter.Engine.Scope

/-!
# Integer values and the default cache key

`IntEvalValue` is the one value class the shipped models use, so their payloads are `APInt`s.

`HashFns` collects the hash functions of LLVM and MLIR the cache keys are built from.  They are
arbitrary functions of what they hash, which is the consistency the cache relies on: equal arguments
hash equally.

`getDefaultHash` and `isDefaultEquivalent` are the default `getHash` and `isEquivalentTo` of
`EvaluableOpInterface.cpp`.
-/

set_option autoImplicit false

namespace MlirInterpreter

namespace APInt

def isZero (a : APInt) : Bool := a.bits.toNat = 0

/-- Addition, subtraction and multiplication modulo `2 ^ width`; LLVM asserts that the widths
agree. -/
def add (a b : APInt) : APInt := ⟨a.width, a.bits + b.bits.setWidth a.width⟩

def sub (a b : APInt) : APInt := ⟨a.width, a.bits - b.bits.setWidth a.width⟩

def mul (a b : APInt) : APInt := ⟨a.width, a.bits * b.bits.setWidth a.width⟩

def isStrictlyPositive (a : APInt) : Bool := 0 < a.bits.toInt

def ult (a b : APInt) : Bool := a.bits.toNat < b.bits.toNat

def slt (a b : APInt) : Bool := a.bits.toInt < b.bits.toInt

/-- `uadd_ov`: the sum, and whether it left the unsigned range. -/
def uaddOv (a b : APInt) : APInt × Bool :=
  (a.add b, decide (2 ^ a.width ≤ a.bits.toNat + b.bits.toNat))

/-- `sadd_ov`: the sum, and whether it left the signed range. -/
def saddOv (a b : APInt) : APInt × Bool :=
  (a.add b, decide (a.bits.toInt + b.bits.toInt ≠ (a.add b).bits.toInt))

end APInt

/-- The hash functions cache keys are built from. -/
structure HashFns (Op Blk : Type) where
  /-- `llvm::hash_value(Operation *)` -/
  ofOp : Op → HashCode
  /-- `mlir::hash_value(Value)` -/
  ofValue : Value Op Blk → HashCode
  /-- `llvm::hash_value(const APInt &)` -/
  ofInt : APInt → HashCode
  /-- `hash_combine(name, attributes, resultTypes, hashProperties)` -/
  ofHead : OpName → ℕ → List Ty → Properties → HashCode
  /-- `hash_combine(name, resultType, overflowFlags, zeroProduct)` -/
  ofBinary : OpName → Option Ty → OverflowFlags → Bool → HashCode
  /-- `hash_combine(hash, operandHash)` -/
  combine : HashCode → HashCode → HashCode
  /-- `hash_combine(head, lhs, rhs)` -/
  combineOperands : HashCode → HashCode → HashCode → HashCode

/-- Hash functions of numbered operations and blocks. -/
def HashFns.numbered {m n : ℕ} : HashFns (Fin m) (Fin n) where
  ofOp op := op.val.toUInt64
  ofValue
    | .result op i => (100 * op.val + i).toUInt64
    | .arg b i => (100 * b.val + i + 50).toUInt64
  ofInt a := a.bits.toNat.toUInt64
  ofHead _ attrs types _ := (attrs + types.length).toUInt64
  ofBinary name _ _ zeroProduct :=
    (match name with
      | .addi => 1000
      | .subi => 2000
      | _ => 3000) + if zeroProduct then 1 else 0
  combine a b := 31 * a + b
  combineOperands head l r := 31 * (31 * head + l) + r

/-- `EvalValue::isEqual` for `IntEvalValue`s: an instance equals itself, and values with the same
width and bits are equal. -/
def EvalValue.isEqual (a b : EvalValue APInt) : Bool := a.addr = b.addr || a.payload = b.payload

theorem EvalValue.isEqual_iff {a b : EvalValue APInt} :
    a.isEqual b = true ↔ a.addr = b.addr ∨ a.payload = b.payload := by
  simp [EvalValue.isEqual]

/-- The contents of a known answer. -/
def Answer.payload? (a : Answer APInt) : Option APInt := a.value?.map EvalValue.payload

@[simp] theorem Answer.payload?_known (v : EvalValue APInt) :
    (Answer.known v).payload? = some v.payload := rfl

@[simp] theorem Answer.payload?_unknown : (Answer.unknown : Answer APInt).payload? = none := rfl

section ComputeHash

variable {Op Blk : Type} (P : Program Op Blk) (H : HashFns Op Blk) {M : Type → Type} [Monad M]
  (hashOperand : Value Op Blk → M (EvalResult HashCode))

/-- The loop of `EvalOperationEquivalence::computeHash` over the operands. -/
def hashOperands (commutative : Bool) :
    List (Value Op Blk) → (hash operandSum : HashCode) → M (EvalResult (HashCode × HashCode))
  | [], hash, operandSum => return .completed (hash, operandSum)
  | operand :: operands, hash, operandSum => do
    match ← hashOperand operand with
    | .signal status => return .signal status
    | .completed operandHash =>
      if commutative then hashOperands commutative operands hash (operandSum + operandHash)
      else hashOperands commutative operands (H.combine hash operandHash) operandSum

/-- `EvalOperationEquivalence::computeHash`. -/
def computeHash (op : Op) : M (EvalResult HashCode) := do
  let head := H.ofHead (P.kind op).name (P.attrs op) (P.resultTypes op) (P.kind op).properties
  let commutative := (P.kind op).name.isCommutative
  match ← hashOperands H hashOperand commutative (P.operands op) head 0 with
  | .signal status => return .signal status
  | .completed (hash, operandSum) =>
    return .completed (if commutative then H.combine hash operandSum else hash)

end ComputeHash

section Defaults

variable {Op Blk σ : Type} [DecidableEq Op] [DecidableEq Blk] (P : Program Op Blk)
  (H : HashFns Op Blk)

/-- `hashEvaluatedValue`. -/
def hashEvaluatedValue (value : Value Op Blk) : ScopeM Op Blk σ APInt (EvalResult HashCode) := do
  match ← EvalScope.query value with
  | .signal status => return .signal status
  | .completed (some known) => return .completed (H.ofInt known.payload)
  | .completed none => return .completed (H.ofValue value)

/-- `isEvaluatedValueEqual`. -/
def isEvaluatedValueEqual (lhs rhs : Value Op Blk) :
    ScopeM Op Blk σ APInt (EvalResult Bool) := do
  if lhs = rhs then
    return .completed true
  match ← EvalScope.query lhs with
  | .signal status => return .signal status
  | .completed none => return .completed false
  | .completed (some lhsValue) =>
    match ← EvalScope.query rhs with
    | .signal status => return .signal status
    | .completed none => return .completed false
    | .completed (some rhsValue) => return .completed (lhsValue.isEqual rhsValue)

/-- `detail::getDefaultHash`. -/
def getDefaultHash (op : Op) : ScopeM Op Blk σ APInt (EvalResult HashCode) :=
  computeHash P H (hashEvaluatedValue H) op

/-- `detail::isDefaultEquivalent`. -/
def isDefaultEquivalent [Fintype Op] (op other : Op) : ScopeM Op Blk σ APInt (EvalResult Bool) :=
  isEquivalentTo P isEvaluatedValueEqual op other

end Defaults

end MlirInterpreter
