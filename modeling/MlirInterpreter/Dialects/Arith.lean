import MlirInterpreter.Dialects.Defaults

/-!
# The `arith` models

The code of `ArithEval.cpp`: the semantic cache key of `arith.addi`, `arith.subi` and `arith.muli`,
and their evaluation.  A verified operation has two operands and one result; for any other shape,
which the source could not index, the methods give up without asking for a value.
-/

set_option autoImplicit false

namespace MlirInterpreter

namespace Arith

variable {Op Blk σ : Type} [DecidableEq Op] [DecidableEq Blk] (P : Program Op Blk)
  (H : HashFns Op Blk)

/-- `isZero`: a known zero. -/
def isZero : Answer APInt → Bool
  | .completed (some value) => value.payload.isZero
  | _ => false

/-- `getOverflowFlags`. -/
def getOverflowFlags (op : Op) : OverflowFlags :=
  match (P.kind op).properties with
  | .overflow (some flags) => flags
  | _ => .none

/-- Is the operation an `arith.muli`? -/
def isProduct (op : Op) : Bool := (P.kind op).name = .muli

/-- `BinaryKey`: the operand part of an integer binary operation's cache key. -/
inductive BinaryKey (Op : Type)
  /-- The operation itself. -/
  | identity (op : Op)
  /-- A product with a known zero operand. -/
  | zeroProduct
  | operands (lhs rhs : EvalValue APInt)

/-- `getKey`. -/
def getKey (op : Op) : ScopeM Op Blk σ APInt (EvalResult (BinaryKey Op)) := do
  match P.operands op with
  | [l, r] =>
    match ← EvalScope.query l with
    | .signal status => return .signal status
    | .completed lhs =>
      if isProduct P op && isZero (.completed lhs) then
        return .completed .zeroProduct
      -- A product still queries its right operand, which may be zero.
      if lhs.isNone && !isProduct P op then
        return .completed (.identity op)
      match ← EvalScope.query r with
      | .signal status => return .signal status
      | .completed rhs =>
        if isProduct P op && isZero (.completed rhs) then
          return .completed .zeroProduct
        match lhs, rhs with
        | some lhs, some rhs => return .completed (.operands lhs rhs)
        | _, _ => return .completed (.identity op)
  | _ => return .completed (.identity op)

/-- The hash of a key. -/
def hashKey (op : Op) : BinaryKey Op → HashCode
  | .identity op' => H.ofOp op'
  | .zeroProduct =>
    H.ofBinary (P.kind op).name (P.valueType (.result op 0)) (getOverflowFlags P op) true
  | .operands lhs rhs =>
    let head :=
      H.ofBinary (P.kind op).name (P.valueType (.result op 0)) (getOverflowFlags P op) false
    let l := H.ofInt lhs.payload
    let r := H.ofInt rhs.payload
    if (P.kind op).name.isCommutative && decide (r < l) then H.combineOperands head r l
    else H.combineOperands head l r

/-- `BinaryOpEval::getHash`. -/
def getHash (op : Op) : ScopeM Op Blk σ APInt (EvalResult HashCode) := do
  match ← getKey P op with
  | .signal status => return .signal status
  | .completed key => return .completed (hashKey P H op key)

/-- The comparison of two keys, for a commutative or another operation. -/
def equalKeys (commutative : Bool) : BinaryKey Op → BinaryKey Op → Bool
  | .identity op, .identity op' => op = op'
  | .zeroProduct, .zeroProduct => true
  | .operands lhs rhs, .operands lhs' rhs' =>
    (lhs.isEqual lhs' && rhs.isEqual rhs') ||
      (commutative && (lhs.isEqual rhs' && rhs.isEqual lhs'))
  | _, _ => false

/-- `BinaryOpEval::isEquivalentTo`. -/
def isEquivalentTo (op other : Op) : ScopeM Op Blk σ APInt (EvalResult Bool) := do
  if (P.kind op).name ≠ (P.kind other).name ∨ P.resultTypes op ≠ P.resultTypes other ∨
      getOverflowFlags P op ≠ getOverflowFlags P other then
    return .completed false
  match ← getKey P op with
  | .signal status => return .signal status
  | .completed key =>
    match ← getKey P other with
    | .signal status => return .signal status
    | .completed otherKey =>
      return .completed (equalKeys (P.kind op).name.isCommutative key otherKey)

/-- `evaluateKnown`: an operation whose result is unknown when either operand is, so an unknown left
operand leaves the right one unqueried. -/
def evaluateKnown (fn : APInt → APInt → APInt) (op : Op) :
    ScopeM Op Blk σ APInt (List (Answer APInt)) := do
  match P.operands op with
  | [l, r] =>
    match ← EvalScope.query l with
    | .signal status => return [.signal status]
    | .completed none => return [.unknown]
    | .completed (some lhs) =>
      match ← EvalScope.query r with
      | .signal status => return [.signal status]
      | .completed none => return [.unknown]
      | .completed (some rhs) =>
        return [.known (← EvalScope.allocate (fn lhs.payload rhs.payload))]
  | _ => return [.unknown]

/-- `MulIOpEval::evaluate`. -/
def evaluateMul (op : Op) : ScopeM Op Blk σ APInt (List (Answer APInt)) := do
  match P.operands op with
  | [l, r] =>
    -- A zero operand decides the product, so the other one is never queried.
    match ← EvalScope.query l with
    | .signal status => return [.signal status]
    | .completed lhs =>
      if isZero (.completed lhs) then
        return [.completed lhs]
      match ← EvalScope.query r with
      | .signal status => return [.signal status]
      | .completed rhs =>
        if isZero (.completed rhs) then
          return [.completed rhs]
        match lhs, rhs with
        | some lhs, some rhs =>
          return [.known (← EvalScope.allocate (lhs.payload.mul rhs.payload))]
        | _, _ => return [.unknown]
  | _ => return [.unknown]

/-- A model with the semantic key of `BinaryOpEval`. -/
def binaryOpEval (op : Op) (evaluate : ScopeM Op Blk σ APInt (List (Answer APInt))) :
    OpModel Op Blk σ APInt where
  isCacheable := pure (.completed (P.isMemoryEffectFree op))
  getHash := getHash P H op
  isEquivalentTo := isEquivalentTo P op
  evaluate := evaluate

/-- `AddIOpEval`. -/
def addIOpEval (op : Op) : OpModel Op Blk σ APInt :=
  binaryOpEval P H op (evaluateKnown P APInt.add op)

/-- `SubIOpEval`. -/
def subIOpEval (op : Op) : OpModel Op Blk σ APInt :=
  binaryOpEval P H op (evaluateKnown P APInt.sub op)

/-- `MulIOpEval`. -/
def mulIOpEval (op : Op) : OpModel Op Blk σ APInt :=
  binaryOpEval P H op (evaluateMul P op)

end Arith

end MlirInterpreter
