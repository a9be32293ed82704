import MlirInterpreter.Equivalence.Operands
import MlirInterpreter.Reference.Properties

/-!
# Equivalent operations have equal values

What the comparison of two operations with regions establishes.  `Matching.congruence`: if a
matching was found and the operands of all recorded pairs agree, the results of `lhs` and `rhs` have
the same reference values.

The induction is along the use-def graph, for two environments that bind corresponding arguments to
the same values: below `lhs` and `rhs` they differ from the environment of the comparison, but
values from outside do not depend on those arguments.
-/

set_option autoImplicit false

namespace MlirInterpreter

variable {Op Blk : Type} {P : Program Op Blk}

/-! ## Congruence -/

section Congruence

variable {lhs rhs : Op} {m : Matching Op Blk} {env e₁ e₂ : Env Blk}

open Reference

namespace Matching

variable [DecidableEq Op] [DecidableEq Blk] [Fintype Op]

/-- Two operands agree: they correspond, or are values from outside that are equal. -/
def Agree (P : Program Op Blk) (m : Matching Op Blk) (env : Env Blk) (x y : Value Op Blk) : Prop :=
  m.values.lookup x = some y ∨
    m.values.lookup x = none ∧ y ∉ m.rhsValues ∧ reference P env x = reference P env y

/-- The operands of two operations agree, in some order if it does not matter. -/
def OperandsAgree (P : Program Op Blk) (m : Matching Op Blk) (env : Env Blk) (l r : Op) : Prop :=
  if (P.kind l).name.isCommutative then
    ∃ ys, ys.Perm (P.operands r) ∧ List.Forall₂ (m.Agree P env) (P.operands l) ys
  else List.Forall₂ (m.Agree P env) (P.operands l) (P.operands r)

end Matching

/-- Environments for the two sides of a comparison made in `env`. -/
structure Twins (P : Program Op Blk) (lhs rhs : Op) (env e₁ e₂ : Env Blk) : Prop where
  same : ∀ b c, CorrespondingBlocks P lhs rhs b c → ∀ i, e₁ b i = e₂ c i
  left : ∀ b, (∀ c, ¬ CorrespondingBlocks P lhs rhs b c) → ∀ i, e₁ b i = env b i
  right : ∀ c, (∀ b, ¬ CorrespondingBlocks P lhs rhs b c) → ∀ i, e₂ c i = env c i
  leftTyped : e₁.WellTyped P
  rightTyped : e₂.WellTyped P

section

variable [DecidableEq Op] [DecidableEq Blk]

/-- The two sides enter corresponding blocks. -/
theorem Twins.bind (h : Twins P lhs rhs env e₁ e₂) {b c : Blk}
    (hbc : CorrespondingBlocks P lhs rhs b c) {args : List (Option APInt)}
    (hb : ListHasType (P.argTypes b) args) (hc : ListHasType (P.argTypes c) args) :
    Twins P lhs rhs env (e₁.bind b args) (e₂.bind c args) where
  same b' c' hbc' i := by
    simp only [Env.bind]
    by_cases hb' : b' = b
    · subst hb'
      rw [if_pos rfl, if_pos (hbc'.unique hbc)]
    · rw [if_neg hb', if_neg ?_]
      · exact h.same b' c' hbc' i
      · rintro rfl
        exact hb' (hbc'.symm.unique hbc.symm)
  left b' hb' i := by
    simp only [Env.bind]
    rw [if_neg ?_]
    · exact h.left b' hb' i
    · rintro rfl
      exact hb' c hbc
  right c' hc' i := by
    simp only [Env.bind]
    rw [if_neg ?_]
    · exact h.right c' hc' i
    · rintro rfl
      exact hc' b hbc
  leftTyped := h.leftTyped.bind hb
  rightTyped := h.rightTyped.bind hc

/-- The nests below two operations have the same shape. -/
structure SameShape (P : Program Op Blk) (lhs rhs : Op) : Prop where
  alike : ∀ l r, Corresponds P lhs rhs l r → Alike P l r
  argTypes : ∀ b c, CorrespondingBlocks P lhs rhs b c → P.argTypes b = P.argTypes c
  ops : ∀ b c, CorrespondingBlocks P lhs rhs b c → (P.ops b).length = (P.ops c).length

theorem Matching.CoversBelow.sameShape (hm : m.CoversBelow P lhs rhs) : SameShape P lhs rhs where
  alike l r hlr := (hm l r hlr).alike
  argTypes := fun b c ⟨l, r, hlr, hbc⟩ => ((hm l r hlr).blocks b c hbc).argTypes
  ops := fun b c ⟨l, r, hlr, hbc⟩ => ((hm l r hlr).blocks b c hbc).ops

end

namespace SameShape

theorem symm (h : SameShape P lhs rhs) : SameShape P rhs lhs where
  alike l r hlr := (h.alike r l hlr.symm).symm
  argTypes b c hbc := (h.argTypes c b hbc.symm).symm
  ops b c hbc := (h.ops c b hbc.symm).symm

/-- The blocks of an operation that corresponds do. -/
theorem block (h : SameShape P lhs rhs) {l r : Op} (hlr : Corresponds P lhs rhs l r) {b : Blk}
    (hb : (P.parentRegion b).op = l) : ∃ c, CorrespondingBlocks P lhs rhs b c := by
  obtain ⟨k, hk⟩ := P.exists_blockAt b
  rw [hb] at hk
  obtain ⟨c, hc⟩ := (h.alike l r hlr).blockAt hk
  exact ⟨c, l, r, hlr, _, k, hk, hc⟩

/-- The operations of a block that corresponds do. -/
theorem op (h : SameShape P lhs rhs) {b c : Blk} (hbc : CorrespondingBlocks P lhs rhs b c) {l : Op}
    (hl : P.parentBlock l = some b) : ∃ r, Corresponds P lhs rhs l r := by
  have hlen := h.ops b c hbc
  obtain ⟨l₀, r₀, hlr, hsame⟩ := hbc
  obtain ⟨p, hp⟩ := List.mem_iff_getElem?.mp ((P.mem_ops_iff l b).mpr hl)
  have hp' : p < (P.ops c).length := hlen ▸ (List.getElem?_eq_some_iff.mp hp).1
  exact ⟨_, .nested hlr hsame p hp (List.getElem?_eq_getElem hp')⟩

/-- Every block inside a corresponding one corresponds. -/
theorem inside (h : SameShape P lhs rhs) {b c : Blk} (hbc : CorrespondingBlocks P lhs rhs b c)
    {r : Region Op} (hin : P.Inside (P.parentRegion b) r) {b' : Blk} (hb' : P.parentRegion b' = r) :
    ∃ c', CorrespondingBlocks P lhs rhs b' c' := by
  induction hin generalizing b' with
  | refl =>
    obtain ⟨l, r, hlr, j, k, hb, -⟩ := hbc
    exact h.block hlr (by rw [hb', hb.parentRegion])
  | up hr _ ih =>
    obtain ⟨b₁, hb₁, hreg⟩ := Option.map_eq_some_iff.mp hr
    obtain ⟨c₁, hbc₁⟩ := ih hreg
    obtain ⟨r₁, hr₁⟩ := h.op hbc₁ hb₁
    exact h.block hr₁ (by rw [hb'])

/-- Every value that depends on a corresponding block corresponds. -/
theorem value (h : SameShape P lhs rhs) (hP : P.Verified) {b c : Blk}
    (hbc : CorrespondingBlocks P lhs rhs b c) {x : Value Op Blk} (hx : P.Depends b x) :
    ∃ y, CorrespondingValues P lhs rhs x y := by
  obtain ⟨r, hr, hin⟩ := hx.inside hP
  cases x with
  | arg b' i =>
    obtain ⟨c', hbc'⟩ := h.inside hbc hin (Option.some.inj hr)
    exact ⟨_, .arg hbc' i⟩
  | result o i =>
    obtain ⟨b', hb', hreg⟩ := Option.map_eq_some_iff.mp hr
    obtain ⟨c', hbc'⟩ := h.inside hbc hin hreg
    obtain ⟨r, hlr⟩ := h.op hbc' hb'
    exact ⟨_, .result hlr i⟩

end SameShape

theorem CorrespondingValues.symm {x y : Value Op Blk} (h : CorrespondingValues P lhs rhs x y) :
    CorrespondingValues P rhs lhs y x := by
  cases h with
  | result h i => exact .result h.symm i
  | arg h i => exact .arg h.symm i

theorem CorrespondingValues.valid (h : SameShape P lhs rhs) {x y : Value Op Blk}
    (hxy : CorrespondingValues P lhs rhs x y) (hy : P.Valid y) : P.Valid x := by
  cases hxy with
  | @result l r hlr i =>
    rw [Program.Valid, Program.numResults, ← (h.alike l r hlr).resultTypes] at hy
    exact hy
  | @arg b c hbc i =>
    rw [Program.Valid, Program.numArgs, ← h.argTypes b c hbc] at hy
    exact hy

variable [DecidableEq Op] [DecidableEq Blk]

/-- Values that correspond are recorded. -/
theorem Matching.CoversBelow.recorded (hm : m.CoversBelow P lhs rhs) {x y : Value Op Blk}
    (hxy : CorrespondingValues P lhs rhs x y) (hx : P.Valid x) : m.Recorded x y := by
  cases hxy with
  | result hlr i => exact (hm _ _ hlr).results i hx
  | arg hbc i =>
    obtain ⟨l, r, hlr, hsame⟩ := hbc
    exact ((hm l r hlr).blocks _ _ hsame).args i hx

variable [Fintype Op]

/-- Operands that agree are equal, if operands that correspond are. -/
theorem Twins.operand (h : Twins P lhs rhs env e₁ e₂) (hP : P.Verified)
    (hm : m.CoversBelow P lhs rhs)
    (hvalues : ∀ x y, m.values.lookup x = some y → CorrespondingValues P lhs rhs x y)
    {x y : Value Op Blk} (hx : P.Valid x) (hy : P.Valid y) (hxy : m.Agree P env x y)
    (hcorr : CorrespondingValues P lhs rhs x y → reference P e₁ x = reference P e₂ y) :
    reference P e₁ x = reference P e₂ y := by
  rcases hxy with hxy | ⟨hnone, hnot, heq⟩
  · exact hcorr (hvalues x y hxy)
  · have hshape := hm.sameShape
    calc reference P e₁ x = reference P env x := by
          refine reference_congr fun b hb => h.left b fun c hbc => ?_
          obtain ⟨y', hxy'⟩ := hshape.value hP hbc hb
          have := (hm.recorded hxy' hx).1
          simp [hnone] at this
      _ = reference P env y := heq
      _ = reference P e₂ y := by
          refine (reference_congr fun c hc => h.right c fun b hbc => ?_).symm
          obtain ⟨x', hxy'⟩ := hshape.symm.value hP hbc.symm hc
          have hx' := hxy'.symm.valid hshape hy
          exact hnot (hm.recorded hxy'.symm hx').2

/-- Two operands in some order. -/
theorem eq_or_swap_of_perm {α : Type} {a b : α} {l : List α} (h : l.Perm [a, b]) :
    l = [a, b] ∨ l = [b, a] := by
  obtain ⟨x, y, rfl⟩ : ∃ x y, l = [x, y] := List.length_eq_two.mp h.length_eq
  have hx : x ∈ [a, b] := h.subset (by simp)
  rcases List.mem_pair.mp hx with rfl | rfl
  · left
    rw [List.perm_singleton.mp (List.Perm.cons_inv h)]
  · right
    rw [List.perm_singleton.mp (List.Perm.cons_inv (h.trans (.swap _ _ _)))]

/-- The operands of two `arith` operations agree in one of the two orders. -/
theorem arith_twins (hP : P.Verified) {l r : Op} (halike : Alike P l r)
    (harith : P.isArith l = true) (ht : e₂.WellTyped P) (hagree : m.OperandsAgree P env l r)
    (hops : ∀ x ∈ P.operands l, ∀ y ∈ P.operands r, m.Agree P env x y →
      reference P e₁ x = reference P e₂ y) :
    ∃ a b c d t, P.operands l = [a, b] ∧ P.operands r = [c, d] ∧
      HasType (some t) (reference P e₂ c) ∧ HasType (some t) (reference P e₂ d) ∧
      ((reference P e₁ a = reference P e₂ c ∧ reference P e₁ b = reference P e₂ d) ∨
        ((P.kind l).name.isCommutative = true ∧
          reference P e₁ a = reference P e₂ d ∧ reference P e₁ b = reference P e₂ c)) := by
  have harith' : P.isArith r = true := by rwa [Program.isArith, ← halike.kind]
  obtain ⟨a, b, t, hl⟩ := hP.arith l harith
  obtain ⟨c, d, t', hr⟩ := hP.arith r harith'
  refine ⟨a, b, c, d, t', hl.operands, hr.operands, ?_, ?_, ?_⟩
  · exact hr.lhsType ▸ reference_hasType hP ht (hP.valid r c (by simp [hr.operands]))
  · exact hr.rhsType ▸ reference_hasType hP ht (hP.valid r d (by simp [hr.operands]))
  · have pair : ∀ x y, List.Forall₂ (m.Agree P env) [a, b] [x, y] → x ∈ [c, d] → y ∈ [c, d] →
        reference P e₁ a = reference P e₂ x ∧ reference P e₁ b = reference P e₂ y := by
      intro x y h hx hy
      simp only [List.forall₂_cons, List.forall₂_nil_right_iff, and_true] at h
      rw [hl.operands, hr.operands] at hops
      exact ⟨hops a (by simp) x hx h.1, hops b (by simp) y hy h.2⟩
    rw [Matching.OperandsAgree, hl.operands, hr.operands] at hagree
    split at hagree
    · next hcomm =>
      obtain ⟨ys, hperm, hys⟩ := hagree
      rcases eq_or_swap_of_perm hperm with rfl | rfl
      · exact Or.inl (pair c d hys (by simp) (by simp))
      · exact Or.inr ⟨hcomm, pair d c hys (by simp) (by simp)⟩
    · exact Or.inl (pair c d hagree (by simp) (by simp))

/-- One layer of the evaluation of two operations that agree. -/
theorem opResult_twins (hP : P.Verified) {l r : Op} (halike : Alike P l r)
    (ht₁ : e₁.WellTyped P) (ht : e₂.WellTyped P) (hagree : m.OperandsAgree P env l r)
    (hops : ∀ x ∈ P.operands l, ∀ y ∈ P.operands r, m.Agree P env x y →
      reference P e₁ x = reference P e₂ y)
    (hbody : ∀ b c, P.loopBody l = some b → P.loopBody r = some c → P.isLoop l = true →
      ∀ args, ListHasType (P.argTypes b) args →
      (P.yieldedValues b).map (reference P (e₁.bind b args)) =
        (P.yieldedValues c).map (reference P (e₂.bind c args))) (i : ℕ) :
    opResult P (reference P) e₁ l i = opResult P (reference P) e₂ r i := by
  have hkind := halike.kind
  have arith : P.isArith l = true →
      opResult P (reference P) e₁ l i = opResult P (reference P) e₂ r i := by
    intro harith
    obtain ⟨a, b, c, d, t, hl, hr, htc, htd, h⟩ := arith_twins hP halike harith ht hagree hops
    rw [opResult_arith hl harith, opResult_arith hr (by rwa [Program.isArith, ← hkind]), ← hkind]
    rcases h with ⟨h₁, h₂⟩ | ⟨hcomm, h₁, h₂⟩
    · rw [h₁, h₂]
    · rw [h₁, h₂, ofArith_comm hcomm htd htc]
  cases hk : P.kind l with
  | constant id value =>
    rw [opResult, opResult, ← hkind, hk]
    cases value <;> rfl
  | addi o => exact arith (by simp [Program.isArith, hk])
  | subi o => exact arith (by simp [Program.isArith, hk])
  | muli o => exact arith (by simp [Program.isArith, hk])
  | scfFor isUnsigned =>
    have hloop : P.isLoop l = true := by simp [Program.isLoop, hk]
    obtain ⟨lb, ub, step, inits, body, ys, t, hl⟩ := hP.loop l hloop
    obtain ⟨lb', ub', step', inits', body', ys', t', hr⟩ :=
      hP.loop r (by simp [Program.isLoop, ← hkind, hk])
    have hb := Program.loopBody_eq_some.mpr hl.regions
    have hb' := Program.loopBody_eq_some.mpr hr.regions
    have hvalues : List.Forall₂ (fun x y => reference P e₁ x = reference P e₂ y) (P.operands l)
        (P.operands r) := by
      rw [Matching.OperandsAgree,
        if_neg (by simp [hk, OpKind.name, OpName.isCommutative])] at hagree
      rw [List.forall₂_iff_get] at hagree ⊢
      exact ⟨hagree.1, fun k h₁ h₂ =>
        hops _ (List.get_mem _ _) _ (List.get_mem _ _) (hagree.2 k h₁ h₂)⟩
    rw [hl.operands, hr.operands] at hvalues
    simp only [List.forall₂_cons] at hvalues
    obtain ⟨hlb, hub, hstep, hinits⟩ := hvalues
    have hinits' : inits.map (reference P e₁) = inits'.map (reference P e₂) := by
      rw [← List.forall₂_eq_eq_eq, List.forall₂_map_left_iff, List.forall₂_map_right_iff]
      exact hinits
    rw [opResult, opResult, ← hkind, hk, hl.operands, hr.operands]
    simp only [hb, hb']
    rw [hlb, hub, hstep, hinits']
    rw [loop_congr (J := ListHasType (P.resultTypes l)) (g := yields P (reference P) e₂ body')]
    · rw [← hinits']
      exact listHasType_map hl.initTypes fun v hv =>
        reference_hasType hP ht₁ (hP.valid l v (by simp [hl.operands, hv]))
    · rintro iv c ⟨x, hx, hw⟩ hc
      have hargs : ListHasType (P.argTypes body) (some iv :: c) := by
        rw [hl.args]
        refine .cons ?_ hc
        rintro z ⟨⟩
        have hty := reference_hasType hP ht₁ (hP.valid l lb (by simp [hl.operands])) x (hlb ▸ hx)
        rw [hl.control.1] at hty
        rw [hw]
        exact hty
      refine ⟨hbody body body' hb hb' hloop _ hargs, ?_⟩
      exact listHasType_map (hl.yieldedValues ▸ hl.yieldTypes) fun v hv =>
        reference_hasType hP (ht₁.bind hargs) (hP.valid_yield hv)
  | scfYield => rw [opResult, opResult, ← hkind, hk]
  | other id comm props => rw [opResult, opResult, ← hkind, hk]

/-- Corresponding operations have equal values in the environments of the two sides. -/
theorem Twins.reference_eq (hP : P.Verified) (hA : P.Acyclic) (hm : m.CoversBelow P lhs rhs)
    (hvalues : ∀ x y, m.values.lookup x = some y → CorrespondingValues P lhs rhs x y)
    (hops : ∀ p ∈ m.ops, m.OperandsAgree P env p.1 p.2) {l r : Op}
    (hlr : Corresponds P lhs rhs l r) (h : Twins P lhs rhs env e₁ e₂) (i : ℕ) :
    reference P e₁ (.result l i) = reference P e₂ (.result r i) := by
  induction l using hA.induction generalizing r e₁ e₂ i with
  | h l ih =>
    have hcov := hm l r hlr
    -- What holds of the operands of `l` holds of everything it demands, in all environments.
    have corr : ∀ {e₁ e₂ : Env Blk}, Twins P lhs rhs env e₁ e₂ → ∀ x y,
        (∀ o j, x = .result o j → P.Demands l o) → CorrespondingValues P lhs rhs x y →
        reference P e₁ x = reference P e₂ y := by
      intro e₁ e₂ h x y hx hxy
      cases hxy with
      | result hlr' j => exact ih _ (hx _ j rfl) hlr' h j
      | arg hbc j => exact h.same _ _ hbc j
    rw [reference_result hA, reference_result hA]
    refine opResult_twins hP hcov.alike h.leftTyped h.rightTyped (hops _ hcov.mem) ?_ ?_ i
    · intro x hx y hy hxy
      refine h.operand hP hm hvalues (hP.valid l x hx) (hP.valid r y hy) hxy (corr h x y ?_)
      rintro o j rfl
      exact Program.demands_of_operand hx
    · intro b c hb hc hloop args hargs
      have hsame : P.SameBlock l r b c := by
        refine ⟨0, 0, ?_, ?_⟩
        · simp [Program.BlockAt, Program.loopBody_eq_some.mp hb]
        · simp [Program.BlockAt, Program.loopBody_eq_some.mp hc]
      have hbc : CorrespondingBlocks P lhs rhs b c := ⟨l, r, hlr, hsame⟩
      have hcb := hcov.blocks b c hsame
      have htwins := h.bind hbc hargs (hcb.argTypes ▸ hargs)
      -- The two terminators are at the same place.
      obtain ⟨lb, ub, step, inits, body, ys, t, hl⟩ := hP.loop l hloop
      obtain rfl : b = body := by
        simpa [hb] using Program.loopBody_eq_some.mpr hl.regions
      obtain ⟨y, hy, hyield, -⟩ := hl.terminator
      rw [List.getLast?_eq_getElem?] at hy
      have hlt := (List.getElem?_eq_some_iff.mp hy).1
      obtain ⟨z, hz⟩ : ∃ z, (P.ops c)[(P.ops b).length - 1]? = some z :=
        ⟨_, List.getElem?_eq_getElem (hcb.ops.symm ▸ hlt :
          (P.ops b).length - 1 < (P.ops c).length)⟩
      have hyz : Corresponds P lhs rhs y z := .nested hlr hsame _ hy hz
      have hby : P.yieldedValues b = P.operands y := by
        rw [Program.yieldedValues, List.getLast?_eq_getElem?, hy]
      have hcz : P.yieldedValues c = P.operands z := by
        rw [Program.yieldedValues, List.getLast?_eq_getElem?, ← hcb.ops, hz]
      have hagree := hops _ (hm y z hyz).mem
      rw [Matching.OperandsAgree, if_neg (by simp [hyield, OpKind.name, OpName.isCommutative]),
        List.forall₂_iff_get] at hagree
      rw [← List.forall₂_eq_eq_eq, List.forall₂_map_left_iff, List.forall₂_map_right_iff, hby, hcz,
        List.forall₂_iff_get]
      refine ⟨hagree.1, fun k h₁ h₂ => ?_⟩
      have hmem := List.get_mem (P.operands y) ⟨k, h₁⟩
      refine htwins.operand hP hm hvalues (hP.valid y _ hmem) (hP.valid z _ (List.get_mem _ _))
        (hagree.2 k h₁ h₂) (corr htwins _ _ ?_)
      intro o j ho
      rw [ho, ← hby] at hmem
      exact Program.demands_of_yield hloop hb hmem

/-- **Operations whose operands agree have equal values.** -/
theorem Matching.congruence (hP : P.Verified) (hA : P.Acyclic) {fuel : ℕ}
    (hmatch : matchOperation P fuel .empty lhs rhs = some m) (henv : env.WellTyped P)
    (hops : ∀ p ∈ m.ops, m.OperandsAgree P env p.1 p.2) (i : ℕ) :
    reference P env (.result lhs i) = reference P env (.result rhs i) := by
  classical
  obtain ⟨hg, hm⟩ := matchOperation_spec (.root : Corresponds P lhs rhs lhs rhs) hmatch
  have hvalues : ∀ x y, m.values.lookup x = some y → CorrespondingValues P lhs rhs x y :=
    fun x y h => (hg.values x y h).resolve_left (by simp [Matching.empty])
  -- The arguments of blocks below the two operations do not matter.
  let e₁ : Env Blk := fun b i => if ∃ c, CorrespondingBlocks P lhs rhs b c then none else env b i
  let e₂ : Env Blk := fun c i => if ∃ b, CorrespondingBlocks P lhs rhs b c then none else env c i
  have htwins : Twins P lhs rhs env e₁ e₂ := by
    refine ⟨fun b c hbc i => ?_, fun b hb i => ?_, fun c hc i => ?_, fun b i => ?_, fun b i => ?_⟩
    · exact (if_pos ⟨c, hbc⟩).trans (if_pos ⟨b, hbc⟩).symm
    · exact if_neg (by simpa using hb)
    · exact if_neg (by simpa using hc)
    · simp only [e₁]
      split
      · exact .none _
      · exact henv b i
    · simp only [e₂]
      split
      · exact .none _
      · exact henv b i
  have outside : ∀ {lhs rhs : Op}, SameShape P lhs rhs → ∀ b c,
      CorrespondingBlocks P lhs rhs b c → ¬ P.Depends b (.result lhs i) := by
    intro lhs rhs hshape b c hbc hdep
    obtain ⟨r, hr, hin⟩ := hdep.inside hP
    obtain ⟨b', hb', hreg⟩ := Option.map_eq_some_iff.mp hr
    obtain ⟨c', l, r', hlr, j, k, hbl, -⟩ := hshape.inside hbc hin hreg
    have := Program.depth_lt_of_nested hbl
      (List.mem_iff_getElem?.mp ((P.mem_ops_iff lhs b').mpr hb')).choose_spec
    have := hlr.depth_le
    omega
  have hshape := hm.sameShape
  calc reference P env (.result lhs i) = reference P e₁ (.result lhs i) :=
        reference_congr fun b hb j =>
          (htwins.left b (fun c hbc => outside hshape b c hbc hb) j).symm
    _ = reference P e₂ (.result rhs i) := htwins.reference_eq hP hA hm hvalues hops .root i
    _ = reference P env (.result rhs i) :=
        reference_congr fun c hc j =>
          htwins.right c (fun b hbc => outside hshape.symm c b hbc.symm hc) j

/-! ## Comparisons that complete -/

namespace Matching

variable {R : Value Op Blk → Value Op Blk → Prop}

/-- Values that match agree, if the callback is right. -/
theorem Agrees.agree {x y : Value Op Blk} (h : m.Agrees P R x y)
    (hR : R x y → reference P env x = reference P env y) : m.Agree P env x y := by
  rcases agrees_iff.mp h with h | ⟨hnone, hnot, rfl | ⟨-, h⟩⟩
  · exact Or.inl h
  · exact Or.inr ⟨hnone, hnot, rfl⟩
  · exact Or.inr ⟨hnone, hnot, hR h⟩

theorem OperandsAgree.of_match {l r : Op} (h : OperandsMatch P (m.Agrees P R) l r)
    (hR : ∀ x y, R x y → reference P env x = reference P env y) : m.OperandsAgree P env l r := by
  rw [OperandsMatch] at h
  rw [OperandsAgree]
  split
  · next hcomm =>
    rw [if_pos hcomm] at h
    obtain ⟨ys, hperm, hall⟩ := h
    exact ⟨ys, hperm, hall.imp fun x y hxy => hxy.agree (hR x y)⟩
  · next hcomm =>
    rw [if_neg hcomm] at h
    exact h.imp fun x y hxy => hxy.agree (hR x y)

end Matching

/-- **Equivalent operations have equal values**, if the callback is right about values from
outside. -/
theorem wp_isEquivalentTo_reference {S : Type} {M : Type → Type} [Monad M] {L : MonadLogic M S}
    {check : Value Op Blk → Value Op Blk → M (EvalResult Bool)} {J : Judging Op Blk S} {s : S}
    (env : Env Blk) (hP : P.Verified) (hJ : J.Kept L check fun x y => P.Valid x ∧ P.Valid y)
    (hs : J.Inv s) :
    L.wp (isEquivalentTo P check lhs rhs) s (J.Ends s
      ((∀ x y, J.yes x y → reference P env x = reference P env y) → P.Acyclic → env.WellTyped P →
        ∀ i, reference P env (.result lhs i) = reference P env (.result rhs i)) True) := by
  rw [isEquivalentTo]
  split
  · next heq => exact L.wp_pure ⟨hJ.refl s hs, fun _ _ _ _ => by rw [heq]⟩
  · rw [checkOperations]
    cases hmatch : Matching.matchOperation P (Fintype.card Op + 1) .empty lhs rhs with
    | none => exact L.wp_pure ⟨hJ.refl s hs, trivial⟩
    | some m =>
      simp only
      split
      · -- Everything recorded corresponds, so it has as many operands on both sides.
        obtain ⟨hg, hm⟩ := Matching.matchOperation_spec
          (.root : Corresponds P lhs rhs lhs rhs) hmatch
        have hlen : ∀ p ∈ m.ops, (P.operands p.1).length = (P.operands p.2).length := fun p hp =>
          (hm p.1 p.2 ((hg.added p hp).resolve_left (by simp [Matching.empty]))).alike.operands
        have hJ' : J.Kept L check (m.Asks P) := ⟨hJ.refl, hJ.trans, hJ.inv, hJ.stops,
          fun s x y hs hxy => hJ.check s x y hs ⟨hxy.1, hxy.2.1⟩⟩
        refine L.wp_mono (Matching.wp_compareAll hJ' hs hP.valid hlen) fun r t h =>
          h.mono (fun hall hyes hA henv => ?_) fun _ => trivial
        exact Matching.congruence hP hA hmatch henv fun p hp => .of_match (hall p hp) hyes
      · exact L.wp_pure ⟨hJ.refl s hs, trivial⟩

end Congruence

end MlirInterpreter
