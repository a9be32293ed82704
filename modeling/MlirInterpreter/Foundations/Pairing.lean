import Mathlib.Data.List.Forall2
import Mathlib.Data.List.Perm.Basic
import Mathlib.Tactic.Common

/-!
# Pairing up two lists

`PairsInto R xs ys` says that every element of `xs` has an `R`-partner of its own in `ys`.  For an
arbitrary relation a pairing has to be searched for; for a relation without forks that do not close
(`Zigzag`) the greedy choice is always right: whatever partner the first element takes, the others
still find theirs (`PairsInto.tail`).

An equivalence relation is a zigzag, and so is a partial bijection, and so is their union as long as
they are about different elements.
-/

set_option autoImplicit false

namespace Pairing

variable {α β : Type} {R : α → β → Prop}

/-- Elements with a common partner have all partners in common. -/
def Zigzag (R : α → β → Prop) : Prop := ∀ x x' y y', R x y → R x' y → R x' y' → R x y'

/-- A list related to one that was put together was put together itself. -/
theorem forall₂_append_right {xs : List α} {ys ys' : List β} (h : List.Forall₂ R xs (ys ++ ys')) :
    ∃ as bs, xs = as ++ bs ∧ List.Forall₂ R as ys ∧ List.Forall₂ R bs ys' :=
  ⟨xs.take ys.length, xs.drop ys.length, (List.take_append_drop _ _).symm,
    List.forall₂_take_append xs ys ys' h, List.forall₂_drop_append xs ys ys' h⟩

/-- Every element of `xs` has a partner of its own in `ys`. -/
def PairsInto (R : α → β → Prop) (xs : List α) (ys : List β) : Prop :=
  ∃ partners rest, ys.Perm (partners ++ rest) ∧ List.Forall₂ R xs partners

theorem PairsInto.nil (ys : List β) : PairsInto R [] ys := ⟨[], ys, .refl _, .nil⟩

theorem PairsInto.perm {xs : List α} {ys ys' : List β} (h : PairsInto R xs ys) (hp : ys'.Perm ys) :
    PairsInto R xs ys' := by
  obtain ⟨partners, rest, hperm, hall⟩ := h
  exact ⟨partners, rest, hp.trans hperm, hall⟩

theorem PairsInto.cons {x : α} {y : β} {xs : List α} {ys : List β} (h : R x y)
    (hs : PairsInto R xs ys) : PairsInto R (x :: xs) (y :: ys) := by
  obtain ⟨partners, rest, hperm, hall⟩ := hs
  exact ⟨y :: partners, rest, hperm.cons y, .cons h hall⟩

/-- The first element has a partner. -/
theorem PairsInto.head {x : α} {xs : List α} {ys : List β} (h : PairsInto R (x :: xs) ys) :
    ∃ y ∈ ys, R x y := by
  obtain ⟨partners, rest, hperm, hall⟩ := h
  cases hall with
  | @cons _ y _ _ hxy _ => exact ⟨y, hperm.mem_iff.mpr (by simp), hxy⟩

/-- **The greedy choice is right.**  Whatever partner the first element takes, the others find
partners among what is left. -/
theorem PairsInto.tail (hR : Zigzag R) {x : α} {y : β} {xs : List α} {ys : List β}
    (h : PairsInto R (x :: xs) (y :: ys)) (hxy : R x y) : PairsInto R xs ys := by
  obtain ⟨partners, rest, hperm, hall⟩ := h
  cases hall with
  | @cons _ z _ zs hxz hzs =>
    have hmem : y ∈ z :: (zs ++ rest) := hperm.mem_iff.mp (by simp)
    rcases List.mem_cons.mp hmem with rfl | hmem
    · exact ⟨zs, rest, List.Perm.cons_inv hperm, hzs⟩
    rcases List.mem_append.mp hmem with hy | hy
    · -- The one who lost its partner `y` takes `z` instead.
      obtain ⟨before, after, rfl⟩ := List.append_of_mem hy
      obtain ⟨as, bs, rfl, has, hbs⟩ := forall₂_append_right hzs
      cases hbs with
      | @cons x' _ bs _ hxy₂ hafter =>
        refine ⟨before ++ z :: after, rest, List.Perm.cons_inv (a := y) (hperm.trans ?_),
          List.rel_append has (.cons (hR x' x y z hxy₂ hxy hxz) hafter)⟩
        simp only [List.append_assoc, List.cons_append]
        calc z :: (before ++ y :: (after ++ rest))
            |>.Perm (z :: y :: (before ++ (after ++ rest))) := List.perm_middle.cons z
          _ |>.Perm (y :: z :: (before ++ (after ++ rest))) := .swap y z _
          _ |>.Perm (y :: (before ++ z :: (after ++ rest))) := List.perm_middle.symm.cons y
    · obtain ⟨before, after, rfl⟩ := List.append_of_mem hy
      refine ⟨zs, z :: (before ++ after), List.Perm.cons_inv (a := y) (hperm.trans ?_), hzs⟩
      calc z :: (zs ++ (before ++ y :: after))
          |>.Perm (z :: y :: (zs ++ (before ++ after))) := by
            rw [← List.append_assoc, ← List.append_assoc]
            exact List.perm_middle.cons z
        _ |>.Perm (y :: z :: (zs ++ (before ++ after))) := .swap y z _
        _ |>.Perm (y :: (zs ++ z :: (before ++ after))) := List.perm_middle.symm.cons y

/-- With as many elements on both sides, all are paired. -/
theorem PairsInto.perm_of_length {xs : List α} {ys : List β} (h : PairsInto R xs ys)
    (hlen : xs.length = ys.length) : ∃ ys', ys'.Perm ys ∧ List.Forall₂ R xs ys' := by
  obtain ⟨partners, rest, hperm, hall⟩ := h
  obtain rfl : rest = [] := by
    have h₁ := hperm.length_eq
    have h₂ := hall.length_eq
    rw [List.length_append] at h₁
    exact List.length_eq_zero_iff.mp (by omega)
  exact ⟨partners, by simpa using hperm.symm, hall⟩

theorem PairsInto.of_perm {xs : List α} {ys ys' : List β} (hperm : ys'.Perm ys)
    (h : List.Forall₂ R xs ys') : PairsInto R xs ys :=
  ⟨ys', [], by simpa using hperm.symm, h⟩

end Pairing
