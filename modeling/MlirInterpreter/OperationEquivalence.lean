import MlirInterpreter.Engine.Answer
import Mathlib.Data.Fintype.Card

/-!
# Operation equivalence

The code of `EvalOperationEquivalence.cpp`.  An `EquivalenceChecker` compares two operations and
their regions in three passes.  `matchOperation` matches their structure and records what
corresponds, as a `Matching`; it gives up on the first difference, which is `none` here, where the
source returns `false` and leaves a `Matching` nobody looks at any more.  `operandsCorrespond` is
the second pass, and `compareAll` the third, the only one that calls `checkEquivalent`.

The callbacks may be programs of any monad: the engine passes programs over an `EvalScope`.
-/

set_option autoImplicit false

namespace MlirInterpreter

variable {Op Blk : Type} [DecidableEq Op] [DecidableEq Blk] (P : Program Op Blk)

/-- What `EquivalenceChecker` records while it matches structure. -/
structure Matching (Op Blk : Type) where
  /-- Corresponding operations, in the order their operands are compared. -/
  ops : List (Op × Op)
  blocks : DenseMap Blk Blk
  /-- Block arguments and results inside `lhs`, with their counterparts inside `rhs`. -/
  values : DenseMap (Value Op Blk) (Value Op Blk)
  /-- The values `values` maps to. -/
  rhsValues : List (Value Op Blk)

/-- Nothing corresponds yet. -/
def Matching.empty : Matching Op Blk := ⟨[], ∅, ∅, []⟩

/-- `llvm::all_of_zip`, for a predicate that also updates a state: `none` when it fails on a pair or
when the lists have different lengths. -/
def allOfZip {M α β : Type} (f : M → α → β → Option M) : M → List α → List β → Option M
  | m, [], [] => some m
  | m, a :: as, b :: bs =>
    match f m a b with
    | some m' => allOfZip f m' as bs
    | none => none
  | _, _, _ => none

namespace Matching

/-- `EquivalenceChecker::mapValues`. -/
def mapValues (m : Matching Op Blk) (lhs rhs : List (Value Op Blk)) : Matching Op Blk :=
  { m with
    values := DenseMap.tryEmplaceAll m.values (lhs.zip rhs)
    rhsValues := m.rhsValues ++ rhs }

/-- Do the successors of two operations correspond?  One outside the compared regions must be the
same block. -/
def successorsMatch (m : Matching Op Blk) (lhs rhs : List Blk) : Bool :=
  (lhs.zip rhs).all fun p => ((m.blocks.lookup p.1).getD p.1 = p.2 : Bool)

/-- `EquivalenceChecker::matchBlock`, given what matches two operations. -/
def matchBlock (matchOp : Matching Op Blk → Op → Op → Option (Matching Op Blk))
    (m : Matching Op Blk) (lhs rhs : Blk) : Option (Matching Op Blk) :=
  if P.argTypes lhs ≠ P.argTypes rhs then none
  else allOfZip matchOp (m.mapValues (P.arguments lhs) (P.arguments rhs)) (P.ops lhs) (P.ops rhs)

/-- `EquivalenceChecker::matchRegion`. -/
def matchRegion (matchOp : Matching Op Blk → Op → Op → Option (Matching Op Blk))
    (m : Matching Op Blk) (lhs rhs : List Blk) : Option (Matching Op Blk) :=
  if lhs.length ≠ rhs.length then none
  else
    -- Blocks correspond by position, and a terminator may name one that comes later.
    allOfZip (matchBlock P matchOp)
      { m with blocks := DenseMap.tryEmplaceAll m.blocks (lhs.zip rhs) }
      lhs rhs

/-- `EquivalenceChecker::matchOperation`, for operations with regions nested at most `fuel` deep. -/
def matchOperation : (fuel : ℕ) → Matching Op Blk → Op → Op → Option (Matching Op Blk)
  | 0, _, _, _ => none
  | fuel + 1, m, lhs, rhs =>
    if (P.kind lhs).name ≠ (P.kind rhs).name ∨
        (P.regions lhs).length ≠ (P.regions rhs).length ∨
        (P.successors lhs).length ≠ (P.successors rhs).length ∨
        (P.operands lhs).length ≠ (P.operands rhs).length ∨
        P.resultTypes lhs ≠ P.resultTypes rhs ∨
        P.attrs lhs ≠ P.attrs rhs ∨
        (P.kind lhs).properties ≠ (P.kind rhs).properties then none
    else if m.successorsMatch (P.successors lhs) (P.successors rhs) then
      let m' := m.mapValues (P.results lhs) (P.results rhs)
      allOfZip (matchRegion P (matchOperation fuel)) { m' with ops := m'.ops ++ [(lhs, rhs)] }
        (P.regions lhs) (P.regions rhs)
    else none

/-- `EquivalenceChecker::matchValues`: whether two values correspond, or nothing when both are
distinct values from outside the compared operations, which only `checkEquivalent` can compare. -/
def matchValues (m : Matching Op Blk) (lhs rhs : Value Op Blk) : Option Bool :=
  match m.values.lookup lhs with
  | some mapped => some (mapped = rhs)
  | none =>
    if rhs ∈ m.rhsValues then some false
    else if lhs = rhs then some true
    else if P.valueType lhs ≠ P.valueType rhs then some false
    else none

/-- The second pass: no operand of a pair of operations that are not commutative is known not to
match. -/
def operandsCorrespond (m : Matching Op Blk) : Bool :=
  m.ops.all fun p =>
    (P.kind p.1).name.isCommutative ||
      ((P.operands p.1).zip (P.operands p.2)).all fun q => m.matchValues P q.1 q.2 ≠ some false

section Compare

variable {M : Type → Type} [Monad M]
  (checkEquivalent : Value Op Blk → Value Op Blk → M (EvalResult Bool))

/-- `EquivalenceChecker::compareValues`. -/
def compareValues (m : Matching Op Blk) (lhs rhs : Value Op Blk) : M (EvalResult Bool) :=
  match m.matchValues P lhs rhs with
  | some matched => pure (.completed matched)
  | none => checkEquivalent lhs rhs

/-- `EquivalenceChecker::compareOperands`. -/
def compareOperands (m : Matching Op Blk) :
    List (Value Op Blk) → List (Value Op Blk) → M (EvalResult Bool)
  | l :: ls, r :: rs => do
    match ← m.compareValues P checkEquivalent l r with
    | .signal status => return .signal status
    | .completed false => return .completed false
    | .completed true => compareOperands m ls rs
  | _, _ => return .completed true

/-- The inner loop of `EquivalenceChecker::compareCommutative`: the first unused operand equivalent
to `l`.  Returns the candidates with it marked as used, or `none` when there is none. -/
def takeFirst (m : Matching Op Blk) (l : Value Op Blk) :
    List (Value Op Blk × Bool) → M (EvalResult (Option (List (Value Op Blk × Bool))))
  | [] => return .completed none
  | (r, isUsed) :: rs => do
    if isUsed then
      match ← takeFirst m l rs with
      | .completed (some rs') => return .completed (some ((r, isUsed) :: rs'))
      | other => return other
    else
      match ← m.compareValues P checkEquivalent l r with
      | .signal status => return .signal status
      | .completed true => return .completed (some ((r, true) :: rs))
      | .completed false =>
        match ← takeFirst m l rs with
        | .completed (some rs') => return .completed (some ((r, isUsed) :: rs'))
        | other => return other

/-- The outer loop of `EquivalenceChecker::compareCommutative`, on the candidates that are left. -/
def pairUp (m : Matching Op Blk) :
    List (Value Op Blk) → List (Value Op Blk × Bool) → M (EvalResult Bool)
  | [], _ => return .completed true
  | l :: ls, rs => do
    match ← m.takeFirst P checkEquivalent l rs with
    | .signal status => return .signal status
    | .completed none => return .completed false
    | .completed (some rs') => pairUp m ls rs'

/-- `EquivalenceChecker::compareCommutative`: matches operands as multisets. -/
def compareCommutative (m : Matching Op Blk) (lhs rhs : List (Value Op Blk)) :
    M (EvalResult Bool) :=
  m.pairUp P checkEquivalent lhs (rhs.map fun r => (r, false))

/-- The third pass. -/
def compareAll (m : Matching Op Blk) : List (Op × Op) → M (EvalResult Bool)
  | [] => return .completed true
  | (l, r) :: ops => do
    let equivalent ←
      if (P.kind l).name.isCommutative then
        m.compareCommutative P checkEquivalent (P.operands l) (P.operands r)
      else m.compareOperands P checkEquivalent (P.operands l) (P.operands r)
    match equivalent with
    | .completed true => compareAll m ops
    | other => return other

end Compare

end Matching

section Entry

variable [Fintype Op] {M : Type → Type} [Monad M]

/-- `EquivalenceChecker::check`. -/
def checkOperations (checkEquivalent : Value Op Blk → Value Op Blk → M (EvalResult Bool))
    (lhs rhs : Op) : M (EvalResult Bool) :=
  match Matching.matchOperation P (Fintype.card Op + 1) .empty lhs rhs with
  | none => pure (.completed false)
  | some m =>
    if m.operandsCorrespond P then m.compareAll P checkEquivalent m.ops
    else pure (.completed false)

/-- `EvalOperationEquivalence::isEquivalentTo`. -/
def isEquivalentTo (checkEquivalent : Value Op Blk → Value Op Blk → M (EvalResult Bool))
    (lhs rhs : Op) : M (EvalResult Bool) :=
  if lhs = rhs then pure (.completed true)
  else checkOperations P checkEquivalent lhs rhs

end Entry

end MlirInterpreter
