import MlirInterpreter.Engine.Compute

/-!
# Frames

What binding, unbinding and memoizing write, one lemma for each: what the bindings are then, and in
which frame a value is noted.  The invariants of the modules that follow are about nothing else.
-/

set_option autoImplicit false

namespace MlirInterpreter

variable {Op Blk σ π : Type} [DecidableEq Op] {P : Program Op Blk}

section Bindings

variable {s : State Op Blk σ π} {b c : Blk} {args : List (Answer π)} {i : ℕ} [DecidableEq Blk]

omit [DecidableEq Op] in
/-- What is bound after a block was bound. -/
theorem State.lookup_bind (hnone : ∀ i, s.engine.bindings.lookup (b, i) = none)
    (hargs : args.length = P.numArgs b) (c : Blk) (i : ℕ) :
    (s.bind P b args).engine.bindings.lookup (c, i) =
      if c = b then args[i]? else s.engine.bindings.lookup (c, i) := by
  simp only [State.bind, DenseMap.lookup_tryEmplaceAll]
  -- The pairs to bind are the arguments of `b` with the answers at their positions.
  have hpair : ∀ p ∈ (P.argKeys b).zip args, p.1.1 = b ∧ args[p.1.2]? = some p.2 := by
    rintro ⟨key, a⟩ hp
    obtain ⟨n, hn⟩ := List.mem_iff_getElem?.mp hp
    obtain ⟨hkey, ha⟩ := List.getElem?_zip_eq_some.mp hn
    obtain ⟨j, hj, rfl⟩ : ∃ j, (List.range (P.numArgs b))[n]? = some j ∧ (b, j) = key := by
      simpa [Program.argKeys] using hkey
    obtain rfl : n = j := by simpa using (List.getElem?_eq_some_iff.mp hj).2
    exact ⟨rfl, ha⟩
  cases hf : ((P.argKeys b).zip args).find? (fun p => p.1 = (c, i)) with
  | some p =>
    obtain ⟨hb, ha⟩ := hpair p (List.mem_of_find?_eq_some hf)
    have hkey : p.1 = (c, i) := by simpa using List.find?_some hf
    rw [hkey] at hb ha
    obtain rfl : c = b := hb
    simp [hnone, ha]
  | none =>
    by_cases hc : c = b
    · subst hc
      -- There is no such argument.
      have hi : args.length ≤ i := by
        by_contra hlt
        push Not at hlt
        refine List.find?_eq_none.mp hf ((c, i), args[i]) (List.mem_iff_getElem?.mpr ⟨i, ?_⟩)
          (by simp)
        rw [List.getElem?_zip_eq_some]
        simp [Program.argKeys, List.getElem?_range (hargs ▸ hlt), hlt]
      simp [hnone, hi]
    · simp [hc]

/-- What is bound after a block was unbound. -/
theorem State.lookup_unbind (s : State Op Blk σ π) (frame : BindingFrame Op Blk) (c : Blk) (i : ℕ) :
    (s.unbind P frame).engine.bindings.lookup (c, i) =
      if c = frame.block ∧ i < P.numArgs frame.block then none
      else s.engine.bindings.lookup (c, i) := by
  simp [State.unbind, DenseMap.lookup_eraseAll, Program.argKeys, eq_comm, and_comm]

end Bindings

namespace State.memoize

variable {v : Value Op Blk}

theorem attach_blocks (frames : List (BindingFrame Op Blk)) :
    (attach P v frames).map BindingFrame.block = frames.map BindingFrame.block := by
  induction frames with
  | nil => rfl
  | cons f frames ih =>
    rw [attach]
    split
    · simp [ih]
    · split <;> simp

/-- A value is noted in the innermost frame that contains it, and what else is noted stays. -/
theorem attach_spec (frames : List (BindingFrame Op Blk)) {k : ℕ}
    {u : Value Op Blk} (h : ∀ f ∈ (attach P v frames).drop k, u ∉ f.memoized) :
    (∀ f ∈ frames.drop k, u ∉ f.memoized) ∧
      (u = v → ∀ f ∈ frames.drop k, contains P v f = false) := by
  induction frames generalizing k with
  | nil => simp
  | cons f frames ih =>
    rw [attach] at h
    split at h
    · next hany =>
      cases k with
      | zero =>
        simp only [List.drop_zero, List.forall_mem_cons] at h ⊢
        obtain ⟨h₁, h₂⟩ := ih (k := 0) h.2
        simp only [List.drop_zero] at h₁ h₂
        refine ⟨⟨h.1, h₁⟩, fun hu => ⟨?_, h₂ hu⟩⟩
        obtain ⟨g, hg, hcon⟩ := List.any_eq_true.mp hany
        simp [h₂ hu g hg] at hcon
      | succ k => exact ih h
    · next hany =>
      have hnone : ∀ g ∈ frames, contains P v g = false := by
        simpa using hany
      cases k with
      | zero =>
        split at h
        · simp only [List.drop_zero, List.forall_mem_cons, List.mem_append, List.mem_singleton,
            not_or] at h ⊢
          exact ⟨⟨h.1.1, h.2⟩, fun hu => absurd hu h.1.2⟩
        · next hf =>
          simp only [List.drop_zero, List.forall_mem_cons] at h ⊢
          exact ⟨h, fun _ => ⟨by simpa using hf, hnone⟩⟩
      | succ k =>
        have h' : ∀ g ∈ frames.drop k, u ∉ g.memoized := by
          split at h <;> exact h
        exact ⟨h', fun _ g hg => hnone g (List.mem_of_mem_drop hg)⟩

end State.memoize

end MlirInterpreter
