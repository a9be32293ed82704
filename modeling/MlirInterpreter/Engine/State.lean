import MlirInterpreter.Engine.Answer
import MlirInterpreter.Foundations.Recorded

/-!
# The state of a context and its engines

`State` is everything a query reads and writes: the context's cache, the fields of the engine that
runs the query, and the answer allocators of the engines.  Queries do not overlap and every engine
is at rest between its queries, so the fields an engine only uses inside a query are kept once, for
the engine that is running.

Three components are not the program's but the observer's:

* `heap` lists the storages that are alive, which is what the system's allocator has to avoid;
* `log` lists what has happened, most recent first; an `Event` is appended by every write;
* `world` is the state the evaluation models keep for themselves (a model may count its calls, or
  answer differently the next time).  The engine never touches it.

`Abort` lists how a run can end other than by returning: the assertions of the engine, an access
outside an array, and a recursion that is cut off.
-/

set_option autoImplicit false

namespace MlirInterpreter

open Recorded

/-- `llvm::hash_code`. -/
abbrev HashCode := UInt64

/-- `detail::CacheEntry`: the cached answers of an operation and of the operations equivalent to it,
with one slot per result. -/
structure CacheEntry (Op π : Type) where
  op : Op
  results : List (Option (Answer π))

/-- `detail::EvalCache`.  Entries are allocated in `arena` one after the other and never move, so a
`CacheEntry *` is a position in it; a bucket lists the entries of one key. -/
structure EvalCache (Op π : Type) where
  copies : DenseMap ℕ (EvalValue π)
  entries : DenseMap HashCode (List ℕ)
  arena : List (CacheEntry Op π)
  constants : DenseMap (Attribute × Option Ty) (Option (EvalValue π))

/-- The bucket of a key; a key that was never inserted has none. -/
def EvalCache.bucket {Op π : Type} (cache : EvalCache Op π) (key : HashCode) : List ℕ :=
  (cache.entries.lookup key).getD []

/-- The cache of a new context. -/
def EvalCache.empty {Op π : Type} : EvalCache Op π := ⟨∅, ∅, [], ∅⟩

/-- `Engine::BindingFrame`. -/
structure BindingFrame (Op Blk : Type) where
  block : Blk
  /-- Values defined in the region of `block` that were memoized in this iteration. -/
  memoized : List (Value Op Blk)

/-- The fields of an engine. -/
structure Engine (Op Blk π : Type) where
  remaining : ℕ
  /-- The allocator of the running query, by the number of the query. -/
  queryAllocator : Option ℕ
  /-- Operations being evaluated in the current query. -/
  active : Finset Op
  /-- Completed answers of the current query. -/
  queryAnswers : DenseMap (Value Op Blk) (Answer π)
  /-- The blocks bound in the current query, most recent last. -/
  frames : List (BindingFrame Op Blk)
  bindings : DenseMap (Blk × ℕ) (Answer π)
  /-- The number of live cache freezes. -/
  freezes : ℕ

/-- An engine at rest. -/
def Engine.idle {Op Blk π : Type} : Engine Op Blk π := ⟨0, none, ∅, ∅, [], ∅, 0⟩

/-- `CacheOutcome`: how the lookup of a queried operation went, if one completed. -/
inductive CacheOutcome
  | none
  | hit
  | miss
deriving DecidableEq

/-- How a candidate of a bucket was judged for an operation. -/
inductive Verdict
  /-- The entry is the operation's own. -/
  | own
  /-- The entry has another number of results. -/
  | otherShape
  /-- The comparison ended with a signal. -/
  | skipped (status : Signal)
  /-- The comparison completed. -/
  | compared (equivalent : Bool)
deriving DecidableEq

/-- The candidate is the entry the search was for. -/
def Verdict.isMatch : Verdict → Bool
  | .own => true
  | .compared equivalent => equivalent
  | _ => false

/-- What a write does. -/
inductive Event (Op Blk π : Type)
  | queryStarted (engine budget : ℕ) (value : Value Op Blk)
  | queryEnded (engine : ℕ) (value : Value Op Blk) (answer : Answer π)
  /-- An answer was copied out of the query. -/
  | handedOut (original copy : EvalValue π)
  | cleared
  | entered (op : Op)
  | left (op : Op)
  | charged
  /-- `evaluate` was called. -/
  | evaluating (op : Op)
  /-- `evaluate` returned. -/
  | evaluated (op : Op) (results : List (Answer π))
  | bound (block : Blk) (args : List (Answer π))
  | unbound (block : Blk)
  | frozen
  | thawed
  | allocated (value : EvalValue π)
  /-- A lookup starts to search the bucket of its key. -/
  | searching (op : Op) (key : HashCode)
  | examined (op : Op) (key : HashCode) (position : ℕ) (verdict : Verdict)
  | appended (op : Op) (key : HashCode) (entry : ℕ)
  /-- `insert` found an entry instead of appending one. -/
  | reused (op : Op) (key : HashCode) (position entry : ℕ)
  /-- A slot was filled with a copy of a value. -/
  | filled (entry idx : ℕ) (original copy : EvalValue π)
  /-- `insert` or `fill` returned. -/
  | stored (entry : ℕ)
  | constantStored (attr : Attribute) (type : Option Ty) (value : Option (EvalValue π))
  | memoized (value : Value Op Blk) (answer : Answer π)
  /-- A nested query returned. -/
  | answered (value : Value Op Blk) (answer : Answer π)
  | worldChanged

/-- An entry was appended. -/
def Event.isAppended {Op Blk π : Type} : Event Op Blk π → Bool
  | .appended .. => true
  | _ => false

/-- A slot was filled. -/
def Event.isFilled {Op Blk π : Type} : Event Op Blk π → Bool
  | .filled .. => true
  | _ => false

/-- A block was bound. -/
def Event.isBound {Op Blk π : Type} : Event Op Blk π → Bool
  | .bound .. => true
  | _ => false

/-- How a run can end other than by returning. -/
inductive Abort
  /-- "cannot start a query while another query is active" -/
  | queryActive
  /-- "every binding and freeze must end with the query" -/
  | leakedScope
  /-- "binding requires one answer per block argument" -/
  | bindArity
  /-- "a block cannot be bound twice at once" -/
  | boundTwice
  /-- "bindings must end in reverse order" -/
  | unbindOrder
  /-- A freeze ends that does not exist. -/
  | thawOrder
  /-- "evaluation must return one answer per operation result" -/
  | resultCount
  /-- A value that does not exist was asked for. -/
  | invalidValue
  /-- An entry, or a slot of an entry, was read out of range. -/
  | outOfRange
  /-- The recursion was cut off. -/
  | outOfFuel
deriving DecidableEq

/-- A context with its engines. -/
structure State (Op Blk σ π : Type) where
  cache : EvalCache Op π
  engine : Engine Op Blk π
  /-- The copies the answer allocator of each engine retained since its `beginRetaining`. -/
  answerCopies : ℕ → DenseMap ℕ (EvalValue π)
  /-- The number of queries started. -/
  queries : ℕ
  /-- The number of `clearCache` calls. -/
  clears : ℕ
  heap : List (EvalValue π)
  world : σ
  log : List (Event Op Blk π)

namespace State

variable {Op Blk σ π : Type}

/-- A new context, with models in the state `w`. -/
def init (w : σ) : State Op Blk σ π :=
  ⟨.empty, .idle, fun _ => ∅, 0, 0, [], w, []⟩

/-- The bucket of a key. -/
def bucket (s : State Op Blk σ π) (key : HashCode) : List ℕ := s.cache.bucket key

/-- The answer memoized for a value. -/
def memo (s : State Op Blk σ π) [DecidableEq Op] [DecidableEq Blk] (v : Value Op Blk) :
    Option (Answer π) :=
  s.engine.queryAnswers.lookup v

end State

/-- Engine code. -/
abbrev EngineM (Op Blk σ π : Type) := Rec (State Op Blk σ π) Abort

section Primitives

variable {Op Blk σ π : Type}

/-- Append an event to the log. -/
def State.note (e : Event Op Blk π) (s : State Op Blk σ π) : State Op Blk σ π :=
  { s with log := e :: s.log }

/-- Write the state by `f`, with an event. -/
def record (e : Event Op Blk π) (f : State Op Blk σ π → State Op Blk σ π) :
    EngineM Op Blk σ π Unit :=
  Rec.write fun s => (f s).note e

/-- Stop unless `c` holds. -/
def require (c : Bool) (x : Abort) : EngineM Op Blk σ π Unit :=
  if c then pure () else Rec.stop x

theorem wp_record {C : Contract (State Op Blk σ π) Abort} {e : Event Op Blk π}
    {f : State Op Blk σ π → State Op Blk σ π} {s : State Op Blk σ π}
    {Q : Unit → State Op Blk σ π → Prop}
    (h : C.rely ((f s).note e) → C.guar ((f s).note e) ∧ Q () ((f s).note e)) :
    wp C (record e f) s Q :=
  wp_write (fun hr => (h hr).1) fun hr => (h hr).2

theorem wp_require {C : Contract (State Op Blk σ π) Abort} {c : Bool} {x : Abort}
    {s : State Op Blk σ π} {Q : Unit → State Op Blk σ π → Prop} (hx : c = false → C.abort x)
    (h : c = true → Q () s) : wp C (require c x) s Q := by
  cases c with
  | true => exact wp_pure (h rfl)
  | false => exact wp_stop (hx rfl)

end Primitives

end MlirInterpreter
