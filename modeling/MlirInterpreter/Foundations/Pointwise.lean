import MlirInterpreter.Foundations.DenseMap
import Mathlib.Data.List.Forall2

/-!
# Lists and maps related entry by entry

`List.Forall₂ R` and `Option.Rel R` relate lists and optional values entry by entry, and
`DenseMap.Pointwise R` relates maps that have the same keys.  The operations on lists and maps take
related arguments to related results.
-/

set_option autoImplicit false

theorem Option.Rel.mono {α β : Type} {R S : α → β → Prop} (hRS : ∀ a b, R a b → S a b)
    {a : Option α} {b : Option β} (h : Option.Rel R a b) : Option.Rel S a b := by
  cases h with
  | none => exact .none
  | some h => exact .some (hRS _ _ h)

theorem Option.Rel.eq_none_iff {α β : Type} {R : α → β → Prop} {a : Option α} {b : Option β}
    (h : Option.Rel R a b) : b = Option.none ↔ a = Option.none := by
  cases h with
  | none => simp
  | some _ => simp

namespace List.Forall₂

variable {α β : Type} {R : α → β → Prop} {l : List α} {l' : List β}

theorem getElem? (h : Forall₂ R l l') (i : ℕ) : Option.Rel R l[i]? l'[i]? := by
  induction h generalizing i with
  | nil => exact .none
  | cons h _ ih =>
    cases i with
    | zero => exact .some h
    | succ i => simpa using ih i

theorem modify {f : α → α} {g : β → β} (h : Forall₂ R l l') (hf : ∀ a b, R a b → R (f a) (g b))
    (i : ℕ) : Forall₂ R (l.modify i f) (l'.modify i g) := by
  induction h generalizing i with
  | nil => simp
  | cons h hl ih =>
    cases i with
    | zero => simpa using ⟨hf _ _ h, hl⟩
    | succ i => simpa using ⟨h, ih i⟩

theorem set (h : Forall₂ R l l') {a : α} {b : β} (hab : R a b) (i : ℕ) :
    Forall₂ R (l.set i a) (l'.set i b) := by
  induction h generalizing i with
  | nil => simp
  | cons h hl ih =>
    cases i with
    | zero => simpa using ⟨hab, hl⟩
    | succ i => simpa using ⟨h, ih i⟩

theorem concat (h : Forall₂ R l l') {a : α} {b : β} (hab : R a b) :
    Forall₂ R (l ++ [a]) (l' ++ [b]) :=
  List.rel_append h (.cons hab .nil)

theorem replicate {a : α} {b : β} (hab : R a b) (n : ℕ) :
    Forall₂ R (List.replicate n a) (List.replicate n b) := by
  induction n with
  | zero => exact .nil
  | succ n ih => exact .cons hab ih

theorem any_eq {p : α → Bool} {q : β → Bool} (h : Forall₂ R l l')
    (hpq : ∀ a b, R a b → q b = p a) : l'.any q = l.any p := by
  induction h with
  | nil => rfl
  | cons h _ ih => rw [List.any_cons, List.any_cons, hpq _ _ h, ih]

end List.Forall₂

namespace DenseMap

variable {K V V' : Type} [DecidableEq K] {R : V → V' → Prop} {m : DenseMap K V} {m' : DenseMap K V'}

/-- The same keys are mapped to related values. -/
def Pointwise (R : V → V' → Prop) (m : DenseMap K V) (m' : DenseMap K V') : Prop :=
  ∀ k, Option.Rel R (m.lookup k) (m'.lookup k)

theorem Pointwise.mono {S : V → V' → Prop} (h : Pointwise R m m') (hRS : ∀ a b, R a b → S a b) :
    Pointwise S m m' := fun k => (h k).mono hRS

theorem Pointwise.empty : Pointwise R (∅ : DenseMap K V) (∅ : DenseMap K V') := fun k => by
  rw [AList.lookup_empty, AList.lookup_empty]
  exact .none

theorem Pointwise.insert (h : Pointwise R m m') {v : V} {v' : V'} (hv : R v v') (k : K) :
    Pointwise R (AList.insert k v m) (AList.insert k v' m') := by
  intro k'
  by_cases hk : k' = k
  · subst hk
    rw [AList.lookup_insert, AList.lookup_insert]
    exact .some hv
  · rw [AList.lookup_insert_ne hk, AList.lookup_insert_ne hk]
    exact h k'

theorem Pointwise.tryEmplace (h : Pointwise R m m') {v : V} {v' : V'} (hv : R v v') (k : K) :
    Pointwise R (m.tryEmplace k v) (m'.tryEmplace k v') := by
  have hk := (h k).eq_none_iff
  rw [DenseMap.tryEmplace, DenseMap.tryEmplace]
  cases hm : m.lookup k with
  | none =>
    rw [hk.mpr hm]
    exact h.insert hv k
  | some _ =>
    cases hm' : m'.lookup k with
    | none => cases hm.symm.trans (hk.mp hm')
    | some _ => exact h

theorem Pointwise.tryEmplaceAll {vs : List V} {vs' : List V'} (h : Pointwise R m m')
    (hvs : List.Forall₂ R vs vs') (ks : List K) :
    Pointwise R (m.tryEmplaceAll (ks.zip vs)) (m'.tryEmplaceAll (ks.zip vs')) := by
  induction hvs generalizing m m' ks with
  | nil => rwa [List.zip_nil_right, List.zip_nil_right]
  | cons hv _ ih =>
    cases ks with
    | nil => exact h
    | cons k ks => exact ih (h.tryEmplace hv k) ks

theorem Pointwise.eraseAll (h : Pointwise R m m') (ks : List K) :
    Pointwise R (m.eraseAll ks) (m'.eraseAll ks) := by
  intro k
  rw [lookup_eraseAll, lookup_eraseAll]
  split
  · exact .none
  · exact h k

theorem Pointwise.isEmpty (h : Pointwise R m m') : m'.isEmpty = m.isEmpty := by
  rw [Bool.eq_iff_iff, isEmpty_iff, isEmpty_iff]
  exact forall_congr' fun k => (h k).eq_none_iff

end DenseMap
