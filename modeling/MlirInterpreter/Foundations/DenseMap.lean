import Mathlib.Data.List.AList

/-!
# Finite maps

`DenseMap K V` is a finite map with the operations of a hash map that keeps the first value stored
under a key: `tryEmplace` stores only under an absent key, and `eraseAll` removes a list of keys.
Everything is stated through `AList.lookup`, so the order of the entries is never observed.
-/

set_option autoImplicit false

/-- A finite map from `K` to `V`. -/
abbrev DenseMap (K V : Type) := AList fun _ : K => V

namespace DenseMap

variable {K V : Type} [DecidableEq K]

/-- Store `v` under `k` unless something is stored there already. -/
def tryEmplace (m : DenseMap K V) (k : K) (v : V) : DenseMap K V :=
  match m.lookup k with
  | some _ => m
  | none => m.insert k v

/-- Store the pairs of `l` in order, each only under an absent key. -/
def tryEmplaceAll (m : DenseMap K V) (l : List (K × V)) : DenseMap K V :=
  l.foldl (fun m p => m.tryEmplace p.1 p.2) m

/-- Remove all the keys of `l`. -/
def eraseAll (m : DenseMap K V) (l : List K) : DenseMap K V :=
  l.foldl (fun m k => m.erase k) m

/-- Nothing is stored. -/
def isEmpty (m : DenseMap K V) : Bool := m.entries.isEmpty

theorem lookup_insert' (m : DenseMap K V) (k k' : K) (v : V) :
    (m.insert k v).lookup k' = if k' = k then some v else m.lookup k' := by
  split
  · next h => rw [h, AList.lookup_insert]
  · next h => rw [AList.lookup_insert_ne h]

theorem lookup_tryEmplace (m : DenseMap K V) (k k' : K) (v : V) :
    (m.tryEmplace k v).lookup k' =
      if k' = k ∧ m.lookup k = none then some v else m.lookup k' := by
  rw [tryEmplace]
  cases hk : m.lookup k with
  | some w => simp
  | none => simp [lookup_insert']

theorem lookup_eraseAll (m : DenseMap K V) (l : List K) (k : K) :
    (m.eraseAll l).lookup k = if k ∈ l then none else m.lookup k := by
  induction l generalizing m with
  | nil => simp [eraseAll]
  | cons a l ih =>
    rw [eraseAll, List.foldl_cons, ← eraseAll, ih]
    by_cases hl : k ∈ l
    · simp [hl]
    · by_cases ha : k = a
      · subst ha
        simp
      · simp [hl, ha, AList.lookup_erase_ne ha]

theorem lookup_tryEmplaceAll (m : DenseMap K V) (l : List (K × V)) (k : K) :
    (m.tryEmplaceAll l).lookup k = (m.lookup k).or ((l.find? fun p => p.1 = k).map Prod.snd) := by
  induction l generalizing m with
  | nil => simp [tryEmplaceAll]
  | cons p l ih =>
    rw [tryEmplaceAll, List.foldl_cons, ← tryEmplaceAll, ih, lookup_tryEmplace, List.find?_cons]
    by_cases hp : p.1 = k
    · subst hp
      cases hm : m.lookup p.1 <;> simp
    · have hp' : ¬(k = p.1) := fun h => hp h.symm
      simp [hp, hp']

theorem isEmpty_iff (m : DenseMap K V) : m.isEmpty = true ↔ ∀ k, m.lookup k = none := by
  rw [isEmpty, List.isEmpty_iff]
  constructor
  · intro h k
    rw [AList.lookup_eq_none, AList.mem_keys, AList.keys, h]
    simp
  · intro h
    rcases he : m.entries with _ | ⟨⟨k, v⟩, l⟩
    · rfl
    · have := h k
      rw [AList.lookup_eq_none, AList.mem_keys, AList.keys, he] at this
      simp at this

end DenseMap
