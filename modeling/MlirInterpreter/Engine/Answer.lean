import MlirInterpreter.IR
import MlirInterpreter.Foundations.DenseMap

/-!
# Evaluated values, answers and allocators

An `EvalValue` is a handle: the address of a storage.  A storage never changes after it was
allocated, so the handle carries what the storage at its address holds, and which allocator owns it,
as long as the storage lives.  The *class and contents* of a value are its `payload`; the
interpreter copies payloads and never looks into them, so their type is a parameter.

Addresses are given out by a `Malloc`, of which only one thing is known: an address that is in use
is not given out again.  In particular the address of a storage whose allocator has died may come
back, with another payload.

`retain` is `EvalValueStorageAllocator::retain`.  It finds copies it made before *by address*.
-/

set_option autoImplicit false

namespace MlirInterpreter

/-- The allocator that owns a storage: the cache's, the answer allocator of an engine, or the
allocator of one query. -/
inductive Owner
  | cache
  | answers (engine : ℕ)
  | query (id : ℕ)
deriving DecidableEq

/-- `EvalValue`: a handle of a storage. -/
structure EvalValue (π : Type) where
  /-- The address of the storage. -/
  addr : ℕ
  /-- The allocator the storage lives in. -/
  owner : Owner
  /-- The class and contents of the value. -/
  payload : π
deriving DecidableEq

/-- `EvalValue::isCached`.  The bit is set exactly for what the cache's allocator made. -/
def EvalValue.isCached {π : Type} (v : EvalValue π) : Bool := v.owner = .cache

/-- The statuses other than `Completed` of `EvalStatus`. -/
inductive Signal
  | exhausted
  | needsOrder
  | cycle
deriving DecidableEq

/-- `EvalResult`: a value once completed, or a signal. -/
inductive EvalResult (α : Type)
  | completed (value : α)
  | signal (status : Signal)
deriving DecidableEq

/-- `Answer`: a signal, or a completed value that is unknown when null. -/
abbrev Answer (π : Type) := EvalResult (Option (EvalValue π))

namespace Answer

variable {π : Type}

abbrev unknown : Answer π := .completed none

abbrev known (v : EvalValue π) : Answer π := .completed (some v)

/-- The handle of a known answer. -/
def value? : Answer π → Option (EvalValue π)
  | .completed v => v
  | .signal _ => none

def isCompleted : Answer π → Bool
  | .completed _ => true
  | .signal _ => false

/-- Completed with a value. -/
def isKnown : Answer π → Bool
  | .completed (some _) => true
  | _ => false

@[simp] theorem value?_known (v : EvalValue π) : (known v).value? = some v := rfl
@[simp] theorem value?_unknown : (unknown : Answer π).value? = none := rfl
@[simp] theorem value?_signal (s : Signal) : value? (.signal s : Answer π) = none := rfl

theorem isKnown_iff {a : Answer π} : a.isKnown = true ↔ ∃ v, a = known v := by
  rcases a with (_ | v) | s <;> simp [isKnown]

theorem value?_eq_some_iff {a : Answer π} {v : EvalValue π} :
    a.value? = some v ↔ a = known v := by
  rcases a with w | s <;> simp [value?]

end Answer

/-! ## Allocation -/

/-- The system's allocator: it picks an address that is not in use. -/
structure Malloc where
  pick : List ℕ → ℕ
  pick_fresh : ∀ used, pick used ∉ used

/-- An allocator that picks the address after the last one in use. -/
def Malloc.next : Malloc where
  pick used := used.foldr max 0 + 1
  pick_fresh used h := by
    have hle : ∀ a ∈ used, a ≤ used.foldr max 0 := by
      intro a ha
      clear h
      induction used with
      | nil => simp at ha
      | cons b used ih =>
        rcases List.mem_cons.mp ha with rfl | ha
        · exact le_max_left _ _
        · exact (ih ha).trans (le_max_right _ _)
    exact absurd (hle _ h) (by omega)

section Allocation

variable {π : Type} (mem : Malloc)

/-- The addresses in use. -/
def addresses (heap : List (EvalValue π)) : List ℕ := heap.map EvalValue.addr

/-- `EvalValueStorageAllocator::allocate`: a new storage with the given payload. -/
def newStorage (heap : List (EvalValue π)) (owner : Owner) (payload : π) : EvalValue π :=
  ⟨mem.pick (addresses heap), owner, payload⟩

/-- What `retain` returns: the value, the storages and the map of retained copies after it. -/
structure Retained (π : Type) where
  value : EvalValue π
  heap : List (EvalValue π)
  copies : DenseMap ℕ (EvalValue π)

/-- `EvalValueStorageAllocator::retain` and `retainStorage`, for the allocator `owner`: a cached
value is returned as it is, and a value at an address that was retained before is the copy made
then.  A new copy is recorded under the address of the original and under its own. -/
def retain (owner : Owner) (heap : List (EvalValue π)) (copies : DenseMap ℕ (EvalValue π))
    (v : EvalValue π) : Retained π :=
  if v.isCached then ⟨v, heap, copies⟩
  else match copies.lookup v.addr with
    | some copy => ⟨copy, heap, copies⟩
    | none =>
      let copy := newStorage mem heap owner v.payload
      ⟨copy, copy :: heap, DenseMap.tryEmplace (copies.insert v.addr copy) copy.addr copy⟩

/-- What an allocator retains is the cache's or its own, and so are the copies it remembers. -/
theorem retain_owner {owner : Owner} {heap : List (EvalValue π)}
    {copies : DenseMap ℕ (EvalValue π)} {v : EvalValue π}
    (h : ∀ addr c, copies.lookup addr = some c → c.owner = owner) :
    ((retain mem owner heap copies v).value.owner = .cache ∨
      (retain mem owner heap copies v).value.owner = owner) ∧
    ∀ addr c, (retain mem owner heap copies v).copies.lookup addr = some c → c.owner = owner := by
  rw [retain]
  split
  · next hv => exact ⟨Or.inl (by simpa [EvalValue.isCached] using hv), h⟩
  · split
    · next c hc => exact ⟨Or.inr (h _ c hc), h⟩
    · refine ⟨Or.inr rfl, fun addr c hc => ?_⟩
      rw [DenseMap.lookup_tryEmplace] at hc
      split at hc
      · exact (Option.some.inj hc) ▸ rfl
      · rw [DenseMap.lookup_insert'] at hc
        split at hc
        · exact (Option.some.inj hc) ▸ rfl
        · exact h addr c hc

end Allocation

end MlirInterpreter
