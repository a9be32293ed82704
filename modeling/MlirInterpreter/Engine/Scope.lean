import MlirInterpreter.Engine.State
import MlirInterpreter.Foundations.Prog

/-!
# What an evaluation model sees of the engine

An evaluation model acts on the engine through an `EvalScope` only.  `ScopeOp` lists what a scope
offers, with the destructors of the two scoped objects it hands out as operations of their own, so a
method of a model is a program over this interface (`ScopeM`) and *an arbitrary model* is an
arbitrary family of such programs.  `world` is a state models share with each other: it lets a
method answer differently every time it is called.

`OpModel` collects the methods of `EvaluableOpInterface` of one operation, `AttrModel` those of
`EvaluableAttrInterface` of one attribute, and `Models` says which operations and attributes have
them.
-/

set_option autoImplicit false

namespace MlirInterpreter

/-- The operations of an `EvalScope`. -/
inductive ScopeOp (Op Blk σ π : Type)
  | query (value : Value Op Blk)
  | declareCost
  | freezeCache
  /-- `~CacheFreeze` -/
  | thawCache
  | bind (block : Blk) (args : List (Answer π))
  /-- `~BlockBinding` -/
  | unbind (block : Blk)
  /-- Construct a value in `getAllocator()`. -/
  | allocate (payload : π)
  | getWorld
  | setWorld (w : σ)

/-- What a scope answers. -/
abbrev ScopeOp.Response {Op Blk σ π : Type} : ScopeOp Op Blk σ π → Type
  | .query _ => Answer π
  | .declareCost => Bool
  | .allocate _ => EvalValue π
  | .getWorld => σ
  | _ => Unit

/-- A method of an evaluation model. -/
abbrev ScopeM (Op Blk σ π : Type) := Prog (ScopeOp Op Blk σ π) ScopeOp.Response

namespace EvalScope

variable {Op Blk σ π α : Type}

def query (value : Value Op Blk) : ScopeM Op Blk σ π (Answer π) :=
  Prog.lift (ScopeOp.query value)

def declareCost : ScopeM Op Blk σ π Bool :=
  Prog.lift ScopeOp.declareCost

/-- `IntEvalValue::get(scope.getAllocator(), ...)` and its like. -/
def allocate (payload : π) : ScopeM Op Blk σ π (EvalValue π) :=
  Prog.lift (ScopeOp.allocate payload)

/-- The body of a C++ scope that starts with `CacheFreeze freeze = scope.freezeCache();`. -/
def withFreeze (body : ScopeM Op Blk σ π α) : ScopeM Op Blk σ π α := do
  Prog.lift ScopeOp.freezeCache
  let result ← body
  Prog.lift ScopeOp.thawCache
  return result

/-- The body of a C++ scope that starts with `BlockBinding binding = scope.bind(block, args);`. -/
def withBinding (block : Blk) (args : List (Answer π)) (body : ScopeM Op Blk σ π α) :
    ScopeM Op Blk σ π α := do
  Prog.lift (ScopeOp.bind block args)
  let result ← body
  Prog.lift (ScopeOp.unbind block)
  return result

end EvalScope

/-- The methods of `EvaluableOpInterface` for one operation. -/
structure OpModel (Op Blk σ π : Type) where
  isCacheable : ScopeM Op Blk σ π (EvalResult Bool)
  getHash : ScopeM Op Blk σ π (EvalResult HashCode)
  isEquivalentTo : Op → ScopeM Op Blk σ π (EvalResult Bool)
  evaluate : ScopeM Op Blk σ π (List (Answer π))

/-- The methods of `EvaluableAttrInterface` for one attribute. -/
structure AttrModel (π : Type) where
  isCacheable : Bool
  /-- The value the attribute denotes; `none` for null. -/
  toEvalValue : Option π

/-- The registered models, by operation and by attribute. -/
structure Models (Op Blk σ π : Type) where
  op : Op → Option (OpModel Op Blk σ π)
  attr : Attribute → Option (AttrModel π)

/-- Query values one after the other. -/
def queryAll {Op Blk σ π : Type} : List (Value Op Blk) → ScopeM Op Blk σ π Unit
  | [] => return ()
  | value :: values => do
    let _ ← EvalScope.query value
    queryAll values

/-- Models whose methods query operands, those of the other operation too in a comparison, and that
hash all operations alike.  The results of an operation have the value `payload`. -/
def reentrantModels {Op Blk σ π : Type} (P : Program Op Blk) (payload : π) : Models Op Blk σ π where
  op op := some {
    isCacheable := do
      queryAll (P.operands op)
      return .completed true
    getHash := do
      queryAll (P.operands op)
      return .completed 0
    isEquivalentTo other := do
      queryAll (P.operands op ++ P.operands other)
      return .completed false
    evaluate := do
      queryAll (P.operands op)
      return List.replicate (P.numResults op) (.known (← EvalScope.allocate payload)) }
  attr _ := none

end MlirInterpreter
