import MlirInterpreter.Engine.Scope
import Mathlib.Data.Fintype.Card

/-!
# The engine and its cache

The code of `Engine.cpp` and `EvalCache.cpp`, function by function under the source's names.

`Engine::evaluate`, `Engine::compute` and the methods of the models call each other.  Here every
function takes the nested query it may make, `ask`, as an argument; `compute` ties the knot by
recursion on a bound for the nesting of calls, and stops with `outOfFuel` at the bound.
`findEquivalent` has a bound of its own for the number of candidates.  Both bounds are one more than
the number of operations of the program, and no run of any model reaches them.

Out-of-range accesses and failing assertions stop with the `Abort` that names them.
-/

set_option autoImplicit false

namespace MlirInterpreter

open Recorded

variable {Op Blk σ π : Type} [DecidableEq Op] [DecidableEq Blk]

/-- The parameters of an engine: the program, the models and the system's allocator. -/
structure Setup (Op Blk σ π : Type) where
  program : Program Op Blk
  models : Models Op Blk σ π
  mem : Malloc

variable (E : Setup Op Blk σ π)

/-! ## Scopes -/

/-- The state after a step was charged. -/
def State.charge (s : State Op Blk σ π) : State Op Blk σ π :=
  { s with engine := { s.engine with remaining := s.engine.remaining - 1 } }

/-- `EvalScope::declareCost`. -/
def declareCost : EngineM Op Blk σ π Bool := do
  let s ← Rec.read
  if s.engine.remaining = 0 then
    return false
  record .charged State.charge
  return true

/-- The state with one more freeze. -/
def State.freeze (s : State Op Blk σ π) : State Op Blk σ π :=
  { s with engine := { s.engine with freezes := s.engine.freezes + 1 } }

/-- The state with one freeze less. -/
def State.thaw (s : State Op Blk σ π) : State Op Blk σ π :=
  { s with engine := { s.engine with freezes := s.engine.freezes - 1 } }

/-- `EvalScope::freezeCache`, with the constructor of `CacheFreeze`. -/
def freezeCache : EngineM Op Blk σ π Unit :=
  record .frozen State.freeze

/-- The destructor of `CacheFreeze`. -/
def thawCache : EngineM Op Blk σ π Unit := do
  let s ← Rec.read
  require (0 < s.engine.freezes) .thawOrder
  record .thawed State.thaw

/-- The names of the arguments of a block. -/
def Program.argKeys (P : Program Op Blk) (b : Blk) : List (Blk × ℕ) :=
  (List.range (P.numArgs b)).map fun i => (b, i)

/-- The state after `Engine::bind`. -/
def State.bind (P : Program Op Blk) (block : Blk) (args : List (Answer π))
    (s : State Op Blk σ π) : State Op Blk σ π :=
  { s with engine := { s.engine with
      frames := s.engine.frames ++ [⟨block, []⟩]
      bindings := DenseMap.tryEmplaceAll s.engine.bindings ((P.argKeys block).zip args) } }

/-- `Engine::bind`. -/
def bind (block : Blk) (args : List (Answer π)) : EngineM Op Blk σ π Unit := do
  let s ← Rec.read
  require (args.length = E.program.numArgs block) .bindArity
  require (s.engine.frames.all fun frame => frame.block ≠ block) .boundTwice
  record (.bound block args) (State.bind E.program block args)

/-- The state after `Engine::unbind` of the frame `frame`. -/
def State.unbind (P : Program Op Blk) (frame : BindingFrame Op Blk)
    (s : State Op Blk σ π) : State Op Blk σ π :=
  { s with engine := { s.engine with
      queryAnswers := DenseMap.eraseAll s.engine.queryAnswers frame.memoized
      bindings := DenseMap.eraseAll s.engine.bindings (P.argKeys frame.block)
      frames := s.engine.frames.dropLast } }

/-- `Engine::unbind`. -/
def unbind (block : Blk) : EngineM Op Blk σ π Unit := do
  let s ← Rec.read
  match s.engine.frames.getLast? with
  | none => Rec.stop .unbindOrder
  | some frame =>
    require (frame.block = block) .unbindOrder
    record (.unbound block) (State.unbind E.program frame)

/-- The state with a new storage. -/
def State.addStorage (value : EvalValue π) (s : State Op Blk σ π) : State Op Blk σ π :=
  { s with heap := value :: s.heap }

/-- Construct a value in the allocator of the running query. -/
def allocate (payload : π) : EngineM Op Blk σ π (EvalValue π) := do
  let s ← Rec.read
  let value := newStorage E.mem s.heap (.query s.queries) payload
  record (.allocated value) (State.addStorage value)
  return value

/-- The state with another state of the models. -/
def State.setWorld (w : σ) (s : State Op Blk σ π) : State Op Blk σ π := { s with world := w }

/-- What a scope does, given what `Engine::evaluate` does for a nested query. -/
def handler (ask : Value Op Blk → EngineM Op Blk σ π (Answer π)) :
    (i : ScopeOp Op Blk σ π) → EngineM Op Blk σ π i.Response
  | .query value => do
    let answer ← ask value
    record (.answered value answer) id
    return answer
  | .declareCost => declareCost
  | .freezeCache => freezeCache
  | .thawCache => thawCache
  | .bind block args => bind E block args
  | .unbind block => unbind E block
  | .allocate payload => allocate E payload
  | .getWorld => do
    let s ← Rec.read
    return s.world
  | .setWorld w => record .worldChanged (State.setWorld w)

/-- Run a method of a model. -/
def runScope {α : Type} (ask : Value Op Blk → EngineM Op Blk σ π (Answer π))
    (p : ScopeM Op Blk σ π α) : EngineM Op Blk σ π α :=
  p.run (handler E ask)

/-! ## The cache -/

/-- The entry at a position of the arena. -/
def readEntry (entry : ℕ) : EngineM Op Blk σ π (CacheEntry Op π) := do
  let s ← Rec.read
  match s.cache.arena[entry]? with
  | some e => return e
  | none => Rec.stop .outOfRange

/-- A slot of an entry. -/
def readSlot (entry idx : ℕ) : EngineM Op Blk σ π (Option (Answer π)) := do
  let e ← readEntry entry
  match e.results[idx]? with
  | some slot => return slot
  | none => Rec.stop .outOfRange

/-- `EvalCache::findEquivalent`: the first entry of the bucket of `key` from position `next` on that
belongs to `op` or to an operation equivalent to it, and the position where the search ended. -/
def findEquivalent (ask : Value Op Blk → EngineM Op Blk σ π (Answer π)) (op : Op)
    (model : OpModel Op Blk σ π) (key : HashCode) :
    (fuel next : ℕ) → EngineM Op Blk σ π (Option ℕ × ℕ)
  | 0, _ => Rec.stop .outOfFuel
  | fuel + 1, next => do
    -- The bucket is looked up again on every step: a comparison may have appended to it.
    let s ← Rec.read
    match (s.bucket key)[next]? with
    | none => return (none, next)
    | some entry =>
      let e ← readEntry entry
      if e.op = op then
        record (.examined op key next .own) id
        return (some entry, next)
      if e.results.length ≠ E.program.numResults op then
        record (.examined op key next .otherShape) id
        findEquivalent ask op model key fuel (next + 1)
      else
        match ← runScope E ask (model.isEquivalentTo e.op) with
        | .signal status =>
          record (.examined op key next (.skipped status)) id
          findEquivalent ask op model key fuel (next + 1)
        | .completed equivalent =>
          record (.examined op key next (.compared equivalent)) id
          if equivalent then
            return (some entry, next)
          findEquivalent ask op model key fuel (next + 1)

/-- `detail::CacheLookup`. -/
structure CacheLookup where
  key : HashCode
  entry : Option ℕ
  searched : ℕ

/-- `EvalCache::lookup`, searching at most `fuel` candidates. -/
def lookup (ask : Value Op Blk → EngineM Op Blk σ π (Answer π)) (fuel : ℕ) (op : Op)
    (model : OpModel Op Blk σ π) : EngineM Op Blk σ π (EvalResult CacheLookup) := do
  match ← runScope E ask model.getHash with
  | .signal status => return .signal status
  | .completed key =>
    record (.searching op key) id
    let (entry, searched) ← findEquivalent E ask op model key fuel 0
    return .completed ⟨key, entry, searched⟩

/-- The state after a slot was filled with `r.value`, the copy `retain` made of a value. -/
def State.fillSlot (entry idx : ℕ) (r : Retained π) (s : State Op Blk σ π) : State Op Blk σ π :=
  { s with
    heap := r.heap
    cache := { s.cache with
      copies := r.copies
      arena := s.cache.arena.modify entry fun e =>
        { e with results := e.results.set idx (some (.known r.value)) } } }

/-- One step of `EvalCache::fill`: fill an empty slot with a known answer. -/
def fillSlot (entry idx : ℕ) (answer : Answer π) : EngineM Op Blk σ π Unit := do
  match ← readSlot entry idx, answer with
  | none, .completed (some value) =>
    let s ← Rec.read
    let r := retain E.mem .cache s.heap s.cache.copies value
    record (.filled entry idx value r.value) (State.fillSlot entry idx r)
  | _, _ => return ()

/-- The loop of `EvalCache::fill`, from slot `idx` on. -/
def fillSlots (entry : ℕ) : (idx : ℕ) → List (Answer π) → EngineM Op Blk σ π Unit
  | _, [] => return ()
  | idx, answer :: answers => do
    fillSlot E entry idx answer
    fillSlots entry (idx + 1) answers

/-- `EvalCache::fill`. -/
def fill (entry : ℕ) (answers : List (Answer π)) : EngineM Op Blk σ π Unit := do
  fillSlots E entry 0 answers
  record (.stored entry) id

/-- The state after an entry was appended to the bucket of `key`. -/
def State.append (op : Op) (key : HashCode) (slots : ℕ) (s : State Op Blk σ π) :
    State Op Blk σ π :=
  { s with cache := { s.cache with
      arena := s.cache.arena ++ [⟨op, List.replicate slots none⟩]
      entries := s.cache.entries.insert key (s.bucket key ++ [s.cache.arena.length]) } }

/-- `EvalCache::insert`. -/
def insert (ask : Value Op Blk → EngineM Op Blk σ π (Answer π)) (fuel : ℕ) (op : Op)
    (model : OpModel Op Blk σ π) (lookup : CacheLookup) (answers : List (Answer π)) :
    EngineM Op Blk σ π ℕ := do
  let (found, next) ← findEquivalent E ask op model lookup.key fuel lookup.searched
  match found with
  | some entry =>
    record (.reused op lookup.key next entry) id
    fill E entry answers
    return entry
  | none =>
    let s ← Rec.read
    let entry := s.cache.arena.length
    record (.appended op lookup.key entry) (State.append op lookup.key answers.length)
    fill E entry answers
    return entry

/-! ## The engine -/

/-- The state after `Engine::memoize` of a value that was not memoized. -/
def State.memoize (P : Program Op Blk) (value : Value Op Blk) (answer : Answer π)
    (s : State Op Blk σ π) : State Op Blk σ π :=
  { s with engine := { s.engine with
      queryAnswers := s.engine.queryAnswers.insert value answer
      frames := attach s.engine.frames } }
where
  /-- Does the region of the frame's block contain the definition of `value`? -/
  contains (frame : BindingFrame Op Blk) : Bool :=
    match P.valueRegion value with
    | none => false
    | some region => P.isAncestor (P.parentRegion frame.block) region
  /-- Note `value` in the innermost frame that contains it. -/
  attach : List (BindingFrame Op Blk) → List (BindingFrame Op Blk)
    | [] => []
    | frame :: frames =>
      if frames.any contains then frame :: attach frames
      else if contains frame then { frame with memoized := frame.memoized ++ [value] } :: frames
      else frame :: frames

/-- `Engine::memoize`. -/
def memoize (value : Value Op Blk) (answer : Answer π) : EngineM Op Blk σ π Unit := do
  let s ← Rec.read
  match s.engine.queryAnswers.lookup value with
  | some _ => return ()
  | none => record (.memoized value answer) (State.memoize E.program value answer)

/-- `Engine::evaluate`, given what `Engine::compute` does. -/
def evaluate (compute : Value Op Blk → EngineM Op Blk σ π (Answer π × CacheOutcome))
    (value : Value Op Blk) : EngineM Op Blk σ π (Answer π) := do
  let s ← Rec.read
  match s.engine.queryAnswers.lookup value with
  | some answer => return answer
  | none =>
    let (answer, _) ← compute value
    if answer.isCompleted then
      memoize E value answer
    return answer

/-- The state after the value of a constant was converted into the cache. -/
def State.storeConstant (key : Attribute × Option Ty) (value : Option (EvalValue π))
    (s : State Op Blk σ π) : State Op Blk σ π :=
  { s with
    heap := value.toList ++ s.heap
    cache := { s.cache with constants := DenseMap.tryEmplace s.cache.constants key value } }

/-- `Engine::evaluateConstant`. -/
def evaluateConstant (op : Op) : EngineM Op Blk σ π (Option (EvalValue π) × CacheOutcome) := do
  match E.program.constantAttr op with
  | none => return (none, .none)
  | some attr =>
    match E.models.attr attr with
    | none => return (none, .none)
    | some model =>
      if model.isCacheable then
        let s ← Rec.read
        let type := E.program.valueType (.result op 0)
        match s.cache.constants.lookup (attr, type) with
        | some value => return (value, .hit)
        | none =>
          let value := model.toEvalValue.map (newStorage E.mem s.heap .cache)
          record (.constantStored attr type value) (State.storeConstant (attr, type) value)
          return (value, .miss)
      else
        match model.toEvalValue with
        | none => return (none, .none)
        | some payload => return (some (← allocate E payload), .none)

/-- The answer of `op` for result `idx`, with what `entry` holds taking the place of what was
computed. -/
def canonical (entry : Option ℕ) (results : List (Answer π)) (idx : ℕ) :
    EngineM Op Blk σ π (Answer π) := do
  match results[idx]? with
  | none => Rec.stop .outOfRange
  | some computed =>
    match entry with
    | none => return computed
    | some entry => return (← readSlot entry idx).getD computed

/-- The loop of `Engine::compute` that memoizes the results of `op`, from result `idx` on. -/
def memoizeResults (op : Op) (entry : Option ℕ) (results : List (Answer π)) :
    (idx count : ℕ) → EngineM Op Blk σ π Unit
  | _, 0 => return ()
  | idx, count + 1 => do
    let sibling ← canonical entry results idx
    if sibling.isCompleted then
      memoize E (.result op idx) sibling
    memoizeResults op entry results (idx + 1) count

/-- The part of `Engine::compute` that keeps the answers of an evaluation in the cache, and returns
the entry they were kept in. -/
def store (ask : Value Op Blk → EngineM Op Blk σ π (Answer π)) (fuel : ℕ) (op : Op)
    (model : OpModel Op Blk σ π) (cached : Option CacheLookup) (results : List (Answer π)) :
    EngineM Op Blk σ π (Option ℕ) := do
  match cached with
  | none => return none
  | some cached =>
    let s ← Rec.read
    -- A frozen cache is still looked up, but nothing is stored.
    if s.engine.freezes = 0 ∧ results.any Answer.isKnown then
      match cached.entry with
      | some entry =>
        fill E entry results
        return some entry
      | none => return some (← insert E ask fuel op model cached results)
    else return none

/-- The part of `Engine::compute` from the charge on, for the result `idx` of `op`. -/
def evaluateOp (ask : Value Op Blk → EngineM Op Blk σ π (Answer π)) (fuel : ℕ) (op : Op) (idx : ℕ)
    (model : OpModel Op Blk σ π) (cached : Option CacheLookup) : EngineM Op Blk σ π (Answer π) := do
  -- The step is charged before `evaluate` queries the operands it needs.
  if !(← declareCost) then
    return .signal .exhausted
  record (.evaluating op) id
  let results ← runScope E ask model.evaluate
  require (results.length = E.program.numResults op) .resultCount
  record (.evaluated op results) id
  let entry ← store E ask fuel op model cached results
  memoizeResults E op entry results 0 results.length
  canonical entry results idx

/-- The part of `Engine::compute` inside the cycle guard. -/
def computeActive (ask : Value Op Blk → EngineM Op Blk σ π (Answer π)) (fuel : ℕ) (op : Op)
    (idx : ℕ) (model : OpModel Op Blk σ π) : EngineM Op Blk σ π (Answer π × CacheOutcome) := do
  match ← runScope E ask model.isCacheable with
  | .signal status => return (.signal status, .none)
  | .completed false => return (← evaluateOp E ask fuel op idx model none, .none)
  | .completed true =>
    match ← lookup E ask fuel op model with
    | .signal status => return (.signal status, .none)
    | .completed cached =>
      match cached.entry with
      | none => return (← evaluateOp E ask fuel op idx model (some cached), .miss)
      | some entry =>
        -- An entry can hold an answer for a sibling result only, which is a miss.
        match ← readSlot entry idx with
        | some hit => return (hit, .hit)
        | none => return (← evaluateOp E ask fuel op idx model (some cached), .miss)

/-- The state in which `op` is being evaluated. -/
def State.enter (op : Op) (s : State Op Blk σ π) : State Op Blk σ π :=
  { s with engine := { s.engine with active := Insert.insert op s.engine.active } }

/-- The state in which `op` is not being evaluated any more. -/
def State.leave (op : Op) (s : State Op Blk σ π) : State Op Blk σ π :=
  { s with engine := { s.engine with active := s.engine.active.erase op } }

/-- `Engine::compute` for an operation with a model. -/
def computeOp (ask : Value Op Blk → EngineM Op Blk σ π (Answer π)) (fuel : ℕ) (op : Op) (idx : ℕ)
    (model : OpModel Op Blk σ π) : EngineM Op Blk σ π (Answer π × CacheOutcome) := do
  let s ← Rec.read
  -- Cache-key methods and graph-region operands can re-enter an operation.
  if op ∈ s.engine.active then
    return (.signal .cycle, .none)
  record (.entered op) (State.enter op)
  let result ← computeActive E ask fuel op idx model
  record (.left op) (State.leave op)
  return result

/-- `Engine::compute`, given what a nested query does. -/
def computeWith (ask : Value Op Blk → EngineM Op Blk σ π (Answer π)) (fuel : ℕ) :
    Value Op Blk → EngineM Op Blk σ π (Answer π × CacheOutcome)
  | .arg b i => do
    -- A bound argument holds the current iteration's value, and costs no step.
    let s ← Rec.read
    return ((s.engine.bindings.lookup (b, i)).getD .unknown, .none)
  | .result op idx => do
    require (idx < E.program.numResults op) .invalidValue
    match E.models.op op with
    | some model => computeOp E ask fuel op idx model
    | none =>
      let (value, outcome) ← evaluateConstant E op
      return (.completed value, outcome)

/-- `Engine::compute`, for at most `depth` calls inside one another. -/
def compute (fuel : ℕ) : (depth : ℕ) → Value Op Blk → EngineM Op Blk σ π (Answer π × CacheOutcome)
  | 0, _ => Rec.stop .outOfFuel
  | depth + 1, value => computeWith E (evaluate E (compute fuel depth)) fuel value

/-- The state in which the query number `s.queries + 1` starts. -/
def State.beginQuery (engine budget : ℕ) (s : State Op Blk σ π) : State Op Blk σ π :=
  { s with
    queries := s.queries + 1
    cache := { s.cache with copies := ∅ }
    answerCopies := Function.update s.answerCopies engine ∅
    engine := { s.engine with remaining := budget, queryAllocator := some (s.queries + 1) } }

/-- The state after a value was retained by the answer allocator of an engine. -/
def State.retainAnswer (engine : ℕ) (r : Retained π) (s : State Op Blk σ π) :
    State Op Blk σ π :=
  { s with heap := r.heap, answerCopies := Function.update s.answerCopies engine r.copies }

/-- Copy a known answer into the answer allocator of an engine. -/
def handOut (engine : ℕ) (answer : Answer π) : EngineM Op Blk σ π (Answer π) := do
  match answer with
  | .completed (some value) =>
    let s ← Rec.read
    let r := retain E.mem (.answers engine) s.heap (s.answerCopies engine) value
    record (.handedOut value r.value) (State.retainAnswer engine r)
    return .known r.value
  | answer => return answer

/-- The state in which a query ends: its allocator and its memo are gone. -/
def State.endQuery (s : State Op Blk σ π) : State Op Blk σ π :=
  { s with
    heap := s.heap.filter fun v => v.owner ≠ .query s.queries
    engine := { s.engine with queryAllocator := none, queryAnswers := ∅ } }

/-- Every binding and freeze has ended. -/
def Engine.scopesEnded (engine : Engine Op Blk π) : Bool :=
  engine.frames.isEmpty && DenseMap.isEmpty engine.bindings && engine.freezes = 0

/-- `Engine::query`, by the engine number `engine`, constructed with `budget`. -/
def query [Fintype Op] (engine budget : ℕ) (value : Value Op Blk) :
    EngineM Op Blk σ π (Answer π × CacheOutcome) := do
  let s ← Rec.read
  require s.engine.queryAllocator.isNone .queryActive
  record (.queryStarted engine budget value) (State.beginQuery engine budget)
  let (computed, outcome) ← compute E (Fintype.card Op + 1) (Fintype.card Op + 1) value
  let answer ← handOut E engine computed
  let s ← Rec.read
  require s.engine.scopesEnded .leakedScope
  record (.queryEnded engine value answer) State.endQuery
  return (answer, outcome)

/-- The state after `EvalCache::clear`.  The storages of the cache live on: a handle of a cached
value stays good until the context dies. -/
def State.clear (s : State Op Blk σ π) : State Op Blk σ π :=
  { s with clears := s.clears + 1, cache := .empty }

/-- `EvalContext::clearCache`. -/
def clearCache : EngineM Op Blk σ π Unit :=
  record .cleared State.clear

/-- A history of a context: the states it went through, oldest first, and the state it is in now,
after any sequence of queries, by any engines with any budgets, and of `clearCache` calls. -/
inductive History [Fintype Op] : List (State Op Blk σ π) → State Op Blk σ π → Prop
  | init (w : σ) : History [State.init w] (State.init w)
  | query {past : List (State Op Blk σ π)} {s s' : State Op Blk σ π} (engine budget : ℕ)
      (value : Value Op Blk) {r : Answer π × CacheOutcome} (hv : E.program.Valid value)
      (h : History past s) (hr : (query E engine budget value s).outcome = .ok (r, s')) :
      History (past ++ (query E engine budget value s).visited) s'
  | clear {past : List (State Op Blk σ π)} {s s' : State Op Blk σ π} (h : History past s)
      (hr : (clearCache s).outcome = .ok ((), s')) : History (past ++ (clearCache s).visited) s'

end MlirInterpreter
