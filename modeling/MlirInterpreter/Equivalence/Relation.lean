import MlirInterpreter.Equivalence.Operands

/-!
# The comparison as a relation

What `isEquivalentTo` computes, for two kinds of callbacks.

* With a callback that always completes, as in `compareWith`, the comparison decides
  `EquivalentUnder` (`isEquivalentTo_decides`).  `EquivalentUnder` is symmetric and transitive if
  the callback is, because correspondences can be inverted and composed, so the comparison is an
  equivalence relation (`isEquivalentTo_equivalence`).
* With a callback that may signal and may answer differently every time, as in `tracedComparison`,
  the record of its calls says what was asked: nothing if the structure differs, and nothing after a
  signal (`isEquivalentTo_calls`).
-/

set_option autoImplicit false

namespace MlirInterpreter

variable {Op Blk : Type} {P : Program Op Blk}
  {R : Value Op Blk → Value Op Blk → Prop} {lhs mid rhs l m r : Op} {x y z : Value Op Blk}

/-! ## Inverting and composing -/

theorem forall₂_comp {R' R'' : Value Op Blk → Value Op Blk → Prop}
    (hR : ∀ x y z, R x y → R' y z → R'' x z) {xs ys zs : List (Value Op Blk)}
    (h : List.Forall₂ R xs ys) (h' : List.Forall₂ R' ys zs) : List.Forall₂ R'' xs zs := by
  induction h generalizing zs with
  | nil =>
    cases h' with
    | nil => exact .nil
  | cons hxy _ ih =>
    cases h' with
    | cons hyz h' => exact .cons (hR _ _ _ hxy hyz) (ih h')

theorem OperandsMatch.flip {R' : Value Op Blk → Value Op Blk → Prop} (h : OperandsMatch P R l r)
    (hR : ∀ x y, R x y → R' y x) (hkind : P.kind l = P.kind r) : OperandsMatch P R' r l := by
  rw [OperandsMatch, ← hkind]
  rw [OperandsMatch] at h
  split at h
  · next hcomm =>
    rw [if_pos hcomm]
    obtain ⟨ys, hperm, hall⟩ := h
    have hall' : List.Forall₂ R' ys (P.operands l) := (hall.imp (S := fun x y => R' y x) hR).flip
    obtain ⟨xs, hxs, hperm'⟩ := List.perm_comp_forall₂ hperm.symm hall'
    exact ⟨xs, hperm', hxs⟩
  · next hcomm =>
    rw [if_neg hcomm]
    exact (h.imp (S := fun x y => R' y x) hR).flip

theorem OperandsMatch.comp {R' R'' : Value Op Blk → Value Op Blk → Prop} (h : OperandsMatch P R l m)
    (h' : OperandsMatch P R' m r) (hR : ∀ x y z, R x y → R' y z → R'' x z)
    (hkind : P.kind l = P.kind m) : OperandsMatch P R'' l r := by
  rw [OperandsMatch, ← hkind] at h'
  rw [OperandsMatch] at h ⊢
  split at h
  · next hcomm =>
    rw [if_pos hcomm] at h' ⊢
    obtain ⟨ys, hys, hall⟩ := h
    obtain ⟨zs, hzs, hall'⟩ := h'
    -- Permute the partners of the operands between like these operands.
    obtain ⟨zs', hall'', hzs'⟩ := List.perm_comp_forall₂ hys hall'
    exact ⟨zs', hzs'.trans hzs, forall₂_comp hR hall hall''⟩
  · next hcomm =>
    rw [if_neg hcomm] at h' ⊢
    exact forall₂_comp hR h h'

theorem Matches.flip (hsymm : ∀ x y, R x y → R y x) (h : Matches P lhs rhs R x y) :
    Matches P rhs lhs R y x := by
  rcases h with h | ⟨hx, hy, h⟩
  · exact Or.inl h.flip
  · refine Or.inr ⟨hy, hx, ?_⟩
    rcases h with rfl | ⟨htype, hxy⟩
    · exact Or.inl rfl
    · exact Or.inr ⟨htype.symm, hsymm x y hxy⟩

theorem Matches.comp (htrans : ∀ x y z, R x y → R y z → R x z) (h : Matches P lhs mid R x y)
    (h' : Matches P mid rhs R y z) : Matches P lhs rhs R x z := by
  rcases h with h | ⟨hx, hy, h⟩
  · rcases h' with h' | ⟨hy, -, -⟩
    · exact Or.inl (h.comp h')
    · exact absurd h.right hy
  · rcases h' with h' | ⟨-, hz, h'⟩
    · exact absurd h'.left hy
    · refine Or.inr ⟨hx, hz, ?_⟩
      rcases h with rfl | ⟨htype, hxy⟩
      · exact h'
      · rcases h' with rfl | ⟨htype', hyz⟩
        · exact Or.inr ⟨htype, hxy⟩
        · exact Or.inr ⟨htype.trans htype', htrans x y z hxy hyz⟩

theorem EquivalentUnder.symm (hsymm : ∀ x y, R x y → R y x) (h : EquivalentUnder P R lhs rhs) :
    EquivalentUnder P R rhs lhs := by
  refine ⟨h.1.symm, fun r l hrl => ?_⟩
  have hlr := hrl.symm
  exact (h.2 l r hlr).flip (fun x y => Matches.flip hsymm) (h.1 l r hlr).alike.kind

variable [DecidableEq Op]

theorem EquivalentUnder.trans (htrans : ∀ x y z, R x y → R y z → R x z)
    (h : EquivalentUnder P R lhs mid) (h' : EquivalentUnder P R mid rhs) :
    EquivalentUnder P R lhs rhs := by
  refine ⟨h.1.trans h'.1, fun l r hlr => ?_⟩
  obtain ⟨m, hlm⟩ := h.1.counterpart hlr.left
  obtain ⟨r', hmr⟩ := h'.1.counterpart hlm.right
  obtain rfl := hlr.unique (hlm.comp hmr)
  exact (h.2 l m hlm).comp (h'.2 m r hmr) (fun x y z => Matches.comp htrans)
    (h.1 l m hlm).alike.kind

/-! ## Callbacks that always complete -/

variable [Fintype Op] [DecidableEq Blk]

/-- The comparison of two operations with a callback that always completes. -/
def compareWith (P : Program Op Blk) (eq : Value Op Blk → Value Op Blk → Bool) (lhs rhs : Op) :
    EvalResult Bool :=
  isEquivalentTo (M := Id) P (fun x y => pure (.completed (eq x y))) lhs rhs

/-- What is claimed of a callback that always completes. -/
def decided (eq : Value Op Blk → Value Op Blk → Bool) : Judging Op Blk Unit where
  Inv _ := True
  Rel _ _ := True
  Stops _ _ _ := False
  yes x y := eq x y = true
  no x y := eq x y = false

omit [DecidableEq Op] [DecidableEq Blk] [Fintype Op] in
theorem decided_kept (eq : Value Op Blk → Value Op Blk → Bool)
    (asks : Value Op Blk → Value Op Blk → Prop) :
    (decided eq).Kept MonadLogic.plain (fun x y => pure (.completed (eq x y))) asks where
  refl _ _ := trivial
  trans _ _ _ _ _ := trivial
  inv _ _ _ := trivial
  stops _ _ _ _ _ h := h
  check _ x y _ _ := MonadLogic.plain.wp_pure (by
    cases h : eq x y with
    | true => exact ⟨trivial, h⟩
    | false => exact ⟨trivial, h⟩)

section Decides

variable {eq : Value Op Blk → Value Op Blk → Bool} (hP : P.WellFormed)
  (hsymm : ∀ x y, eq x y = true → eq y x = true)
  (htrans : ∀ x y z, eq x y = true → eq y z = true → eq x z = true)

include hP hsymm htrans

/-- The comparison completes, and decides equivalence. -/
theorem compareWith_spec (lhs rhs : Op) : ∃ b, compareWith P eq lhs rhs = .completed b ∧
    (b = true ↔ lhs = rhs ∨ EquivalentUnder P (fun x y => eq x y = true) lhs rhs) := by
  rw [compareWith, isEquivalentTo]
  split
  · next heq => exact ⟨true, rfl, by simp [heq]⟩
  · next hne =>
    have different : ∀ x y, (decided eq).no x y → ¬ (decided eq).yes x y := fun x y hno => by
      simp only [decided] at hno ⊢
      simp [hno]
    have hcheck : (decided eq).Ends () _ _
        (checkOperations (M := Id) P (fun x y => pure (.completed (eq x y))) lhs rhs) () :=
      wp_checkOperations (s := ()) hP (decided_kept eq _) trivial
    revert hcheck
    generalize checkOperations (M := Id) P (fun x y => pure (.completed (eq x y))) lhs rhs = result
    intro hcheck
    rcases result with (_ | _) | st
    · refine ⟨false, rfl, by simp, ?_⟩
      rintro (heq | h)
      · exact absurd heq hne
      · exact absurd h (hcheck.2 different hsymm htrans)
    · exact ⟨true, rfl, fun _ => Or.inr hcheck.2, fun _ => rfl⟩
    · exact hcheck.elim

/-- **The comparison decides isomorphism.**  With a callback that always completes and is symmetric
and transitive, it completes with `true` exactly if both are the same operation, or their positional
correspondence is a structural isomorphism under which the operands of corresponding operations
match, in some order if it does not matter. -/
theorem isEquivalentTo_decides (lhs rhs : Op) :
    (∃ b, compareWith P eq lhs rhs = .completed b) ∧
      (compareWith P eq lhs rhs = .completed true ↔
        lhs = rhs ∨ EquivalentUnder P (fun x y => eq x y = true) lhs rhs) := by
  obtain ⟨b, hb, hiff⟩ := compareWith_spec hP hsymm htrans lhs rhs
  refine ⟨⟨b, hb⟩, ?_⟩
  rw [hb, ← hiff, EvalResult.completed.injEq]

/-- **The comparison is an equivalence relation**, if the callback is symmetric and transitive. -/
theorem isEquivalentTo_equivalence :
    Equivalence fun lhs rhs => compareWith P eq lhs rhs = .completed true := by
  have decides : ∀ lhs rhs, compareWith P eq lhs rhs = .completed true ↔
      lhs = rhs ∨ EquivalentUnder P (fun x y => eq x y = true) lhs rhs := fun lhs rhs => by
    obtain ⟨b, hb, hiff⟩ := compareWith_spec hP hsymm htrans lhs rhs
    rw [hb, ← hiff, EvalResult.completed.injEq]
  refine ⟨fun o => (decides o o).mpr (Or.inl rfl), fun {l r} h => ?_, fun {l m r} h h' => ?_⟩
  · rcases (decides l r).mp h with rfl | h
    · exact (decides l l).mpr (Or.inl rfl)
    · exact (decides r l).mpr (Or.inr (h.symm hsymm))
  · rcases (decides l m).mp h with rfl | h
    · exact h'
    · rcases (decides m r).mp h' with rfl | h'
      · exact (decides l m).mpr (Or.inr h)
      · exact (decides l r).mpr (Or.inr (h.trans htrans h'))

end Decides

/-- The attribute of the constant that defines a value. -/
def constantOf (P : Program Op Blk) : Value Op Blk → Option Attribute
  | .result op _ => P.constantAttr op
  | .arg _ _ => none

/-- Takes the results of equal constants for the same. -/
def sameConstant (P : Program Op Blk) (x y : Value Op Blk) : Bool :=
  x = y || (constantOf P x).isSome && decide (constantOf P x = constantOf P y)

/-- Two loops, with two constants for a bound and the operands of their sums in another order. -/
theorem isEquivalentTo_decides_twinProgram :
    compareWith twinProgram (sameConstant twinProgram) 3 7 = .completed true ∧
      EquivalentUnder twinProgram (fun x y => sameConstant twinProgram x y = true) 3 7 := by
  have hiff : ∀ x y, sameConstant twinProgram x y = true ↔ x = y ∨
      (constantOf twinProgram x).isSome = true ∧
        constantOf twinProgram x = constantOf twinProgram y := by
    simp [sameConstant]
  have hdecides := isEquivalentTo_decides twinProgram_wellFormed
    (show ∀ x y, sameConstant twinProgram x y = true → sameConstant twinProgram y x = true by grind)
    (by grind) 3 7
  have hcompare : compareWith twinProgram (sameConstant twinProgram) 3 7 = .completed true := by
    decide +kernel
  exact ⟨hcompare, (hdecides.2.mp hcompare).resolve_left (by decide)⟩

theorem isEquivalentTo_equivalence_loopProgram :
    Equivalence fun lhs rhs =>
      compareWith loopProgram (fun _ _ => true) lhs rhs = .completed true :=
  isEquivalentTo_equivalence loopProgram_wellFormed (fun _ _ _ => rfl) fun _ _ _ _ _ => rfl

/-! ## Callbacks that signal -/

/-- The calls of `checkEquivalent` that were made, oldest first, with their results. -/
abbrev Calls (Op Blk : Type) := List ((Value Op Blk × Value Op Blk) × EvalResult Bool)

/-- The comparison of two operations with an arbitrary callback, which may answer differently every
time, and its calls. -/
def tracedComparison (P : Program Op Blk)
    (check : Calls Op Blk → Value Op Blk × Value Op Blk → EvalResult Bool) (lhs rhs : Op) :
    EvalResult Bool × Calls Op Blk :=
  isEquivalentTo P (fun x y => Traced.call check (x, y)) lhs rhs []

/-- All calls were about values that only the callback can compare, and completed. -/
def Calls.Quiet (P : Program Op Blk) (lhs rhs : Op) (calls : Calls Op Blk) : Prop :=
  ∀ c ∈ calls, Askable P lhs rhs c.1.1 c.1.2 ∧ ∃ b, c.2 = .completed b

/-- What is claimed of the record of the calls. -/
def recorded (P : Program Op Blk) (lhs rhs : Op) : Judging Op Blk (Calls Op Blk) where
  Inv _ := True
  Rel calls calls' := ∃ more, calls' = calls ++ more ∧ Calls.Quiet P lhs rhs more
  Stops calls st calls' := ∃ more x y, calls' = calls ++ more ++ [((x, y), .signal st)] ∧
    Calls.Quiet P lhs rhs more ∧ Askable P lhs rhs x y
  yes _ _ := True
  no _ _ := True

omit [DecidableEq Op] [DecidableEq Blk] [Fintype Op] in
theorem Calls.Quiet.append {more more' : Calls Op Blk} (h : Calls.Quiet P lhs rhs more)
    (h' : Calls.Quiet P lhs rhs more') : Calls.Quiet P lhs rhs (more ++ more') := fun c hc =>
  (List.mem_append.mp hc).elim (h c) (h' c)

omit [DecidableEq Op] [DecidableEq Blk] [Fintype Op] in
theorem recorded_kept (check : Calls Op Blk → Value Op Blk × Value Op Blk → EvalResult Bool) :
    (recorded P lhs rhs).Kept (MonadLogic.traced _ _) (fun x y => Traced.call check (x, y))
      fun x y => P.Valid x ∧ P.Valid y ∧ Askable P lhs rhs x y where
  refl calls _ := ⟨[], by simp, by simp [Calls.Quiet]⟩
  trans := by
    rintro calls _ _ ⟨more, rfl, hmore⟩ ⟨more', rfl, hmore'⟩
    exact ⟨more ++ more', by simp, hmore.append hmore'⟩
  inv _ _ _ := trivial
  stops := by
    rintro calls _ _ st ⟨more, rfl, hmore⟩ ⟨more', x, y, rfl, hmore', hxy⟩
    exact ⟨more ++ more', x, y, by simp, hmore.append hmore', hxy⟩
  check calls x y _ hxy := by
    have quiet : ∀ b, Calls.Quiet P lhs rhs [((x, y), .completed b)] := fun b c hc => by
      rw [List.mem_singleton.mp hc]
      exact ⟨hxy.2.2, b, rfl⟩
    change (recorded P lhs rhs).Ends calls _ _ (check calls (x, y))
      (calls ++ [((x, y), check calls (x, y))])
    rcases check calls (x, y) with (_ | _) | st
    · exact ⟨⟨_, rfl, quiet false⟩, trivial⟩
    · exact ⟨⟨_, rfl, quiet true⟩, trivial⟩
    · exact ⟨[], x, y, by simp, by simp [Calls.Quiet], hxy.2.2⟩

/-- **Nothing is asked before the structure matches, and nothing after a signal.**  If the structure
of distinct operations differs anywhere, or operands of corresponding operations that are not
commutative cannot match, then the comparison completes with `false` and makes no call.  Otherwise
all calls are about distinct values of one type from outside; the result is the signal of the last
call if that call signaled, and no call but the last one signals. -/
theorem isEquivalentTo_calls (hP : P.WellFormed) (hne : lhs ≠ rhs)
    (check : Calls Op Blk → Value Op Blk × Value Op Blk → EvalResult Bool) :
    (¬ (Isomorphic P lhs rhs ∧ OperandsFit P lhs rhs) →
      tracedComparison P check lhs rhs = (.completed false, [])) ∧
    (Isomorphic P lhs rhs ∧ OperandsFit P lhs rhs →
      (∀ c ∈ (tracedComparison P check lhs rhs).2, Askable P lhs rhs c.1.1 c.1.2) ∧
      (∀ st, (tracedComparison P check lhs rhs).1 = .signal st ↔
        ∃ c ∈ (tracedComparison P check lhs rhs).2, c.2 = .signal st) ∧
      (∀ before c after st, (tracedComparison P check lhs rhs).2 = before ++ c :: after →
        c.2 = .signal st → after = [])) := by
  rw [tracedComparison, isEquivalentTo, if_neg hne]
  refine ⟨fun hdiffer => by rw [checkOperations_eq hP hdiffer]; rfl, fun _ => ?_⟩
  have hends : (recorded P lhs rhs).Ends [] _ _ _ _ :=
    wp_checkOperations (L := MonadLogic.traced _ _) (s := []) hP (recorded_kept check) trivial
  revert hends
  generalize checkOperations P (fun x y => Traced.call check (x, y)) lhs rhs [] = run
  obtain ⟨result, calls⟩ := run
  intro hends
  have quiet : ∀ more : Calls Op Blk, Calls.Quiet P lhs rhs more → ∀ c ∈ more, ∀ st,
      c.2 ≠ .signal st := fun more hmore c hc st => by
    obtain ⟨b, hb⟩ := (hmore c hc).2
    simp [hb]
  rcases result with b | st
  · obtain ⟨more, hcalls, hmore⟩ : (recorded P lhs rhs).Rel [] calls := by
      cases b with
      | true => exact hends.1
      | false => exact hends.1
    obtain rfl : calls = more := hcalls
    refine ⟨fun c hc => (hmore c hc).1, fun st => ⟨by simp, ?_⟩, ?_⟩
    · rintro ⟨c, hc, hst⟩
      exact absurd hst (quiet _ hmore c hc st)
    · rintro before c after st hcalls hst
      dsimp only at hcalls
      exact absurd hst (quiet _ hmore c (by simp [hcalls]) st)
  · obtain ⟨more, x, y, hcalls, hmore, hxy⟩ := hends
    obtain rfl : calls = more ++ [((x, y), .signal st)] := hcalls
    refine ⟨?_, fun st' => ?_, ?_⟩
    · intro c hc
      rcases List.mem_append.mp hc with hc | hc
      · exact (hmore c hc).1
      · rw [List.mem_singleton.mp hc]
        exact hxy
    · constructor
      · intro hst
        exact ⟨_, List.mem_append_right _ (List.mem_singleton_self _), by simpa using hst⟩
      · rintro ⟨c, hc, hst⟩
        rcases List.mem_append.mp hc with hc | hc
        · exact absurd hst (quiet _ hmore c hc st')
        · rw [List.mem_singleton.mp hc] at hst
          simpa using hst
    · rintro before c after st' hcalls hst
      -- A call that signaled is not among the others, so it is the last one.
      rcases List.append_eq_append_iff.mp hcalls with ⟨as, hbefore, has⟩ | ⟨bs, hmore', hbs⟩
      · cases as with
        | nil => simpa using (List.cons.inj has).2.symm
        | cons a as => simp at has
      · cases bs with
        | nil => simpa using (List.cons.inj hbs).2
        | cons b bs =>
          rw [List.cons_append, List.cons.injEq] at hbs
          exact absurd hst (quiet _ hmore c (by simp [hmore', hbs.1]) st')

/-- A loop and a product are told apart without a call.  Two loops are not: the first call is about
their bounds, and its signal ends the comparison. -/
theorem isEquivalentTo_calls_twinProgram :
    tracedComparison twinProgram (fun _ _ => .signal .exhausted) 3 11 = (.completed false, []) ∧
      (Isomorphic twinProgram 3 7 ∧ OperandsFit twinProgram 3 7) ∧
      Askable twinProgram 3 7 (.result 1 0) (.result 6 0) ∧
      tracedComparison twinProgram (fun _ _ => .signal .exhausted) 3 7 =
        (.signal .exhausted, [((.result 1 0, .result 6 0), .signal .exhausted)]) := by
  have hloops : tracedComparison twinProgram (fun _ _ => .signal .exhausted) 3 7 =
      (.signal .exhausted, [((.result 1 0, .result 6 0), .signal .exhausted)]) := by decide +kernel
  obtain ⟨hdiffer, halike⟩ := isEquivalentTo_calls twinProgram_wellFormed
    (show (3 : Fin 13) ≠ 7 by decide) fun _ _ => .signal .exhausted
  have hfit : Isomorphic twinProgram 3 7 ∧ OperandsFit twinProgram 3 7 := by
    by_contra h
    simpa using hloops.symm.trans (hdiffer h)
  refine ⟨(isEquivalentTo_calls twinProgram_wellFormed (by decide) _).1 fun h => ?_, hfit, ?_,
    hloops⟩
  · exact absurd (h.1 _ _ .root).alike.kind (by decide)
  · exact (halike hfit).1 _ (by rw [hloops]; exact List.mem_singleton_self _)

end MlirInterpreter
