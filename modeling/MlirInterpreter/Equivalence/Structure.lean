import MlirInterpreter.Equivalence.Correspondence
import Mathlib.Data.Fintype.Card

/-!
# The first pass decides structural isomorphism

`Isomorphic P lhs rhs` says that the positional correspondence between the nests of `lhs` and `rhs`
is a structural isomorphism.

* `matchOperation_decides`: a matching is found exactly for isomorphic operations.
* `Matching.Exact`: the matching that is found maps a value exactly to its counterpart.
* `Isomorphic.symm` and `Isomorphic.trans`: isomorphisms can be inverted and composed.

Successors make the order of the pass matter.  A successor is a block of the region the operation is
in, and `matchRegion` maps all blocks of a region before it looks at any operation in it, so by then
a block is mapped if and only if it is inside (`Matching.Ready`).
-/

set_option autoImplicit false

namespace MlirInterpreter

variable {Op Blk : Type} {P : Program Op Blk}

/-! ## Inside an operation -/

/-- What MLIR guarantees of all operations: operands exist, and a successor is a block of the region
the operation is in. -/
structure Program.WellFormed (P : Program Op Blk) : Prop where
  valid : ∀ op, ∀ v ∈ P.operands op, P.Valid v
  successor : ∀ op, ∀ b ∈ P.successors op, P.opRegion op = some (P.parentRegion b)

theorem loopProgram_wellFormed : loopProgram.WellFormed where
  valid := loopProgram_verified.valid
  successor op b hb := by simp [loopProgram] at hb

theorem twinProgram_wellFormed : twinProgram.WellFormed where
  valid := twinProgram_verified.valid
  successor op b hb := by simp [twinProgram] at hb

theorem selfProgram_wellFormed : selfProgram.WellFormed where
  valid := by decide
  successor op b hb := by simp [selfProgram] at hb

/-- An operation is `op` or nested in it. -/
inductive Program.Within (P : Program Op Blk) (op : Op) : Op → Prop
  | root : Within P op op
  | nested {o o' : Op} {j k p : ℕ} {b : Blk} (h : Within P op o) (hb : P.BlockAt o j k b)
      (hp : (P.ops b)[p]? = some o') : Within P op o'

/-- A block is nested in `op`. -/
def Program.BlockWithin (P : Program Op Blk) (op : Op) (b : Blk) : Prop :=
  ∃ o j k, P.Within op o ∧ P.BlockAt o j k b

/-- A value is defined inside `op`: it is a result of `op`, or defined in one of its regions. -/
def Program.DefinedIn (P : Program Op Blk) (op : Op) : Value Op Blk → Prop
  | .result o _ => P.Within op o
  | .arg b _ => P.BlockWithin op b

section Within

variable {lhs rhs op o l r : Op} {b c : Blk} {x y : Value Op Blk}

theorem Program.Within.depth_le (h : P.Within op o) : P.depth op ≤ P.depth o := by
  induction h with
  | root => exact le_rfl
  | nested _ hb hp ih => exact ih.trans (Program.depth_lt_of_nested hb hp).le

/-- The blocks of the region an operation is in are not inside of it. -/
theorem Program.not_blockWithin (h : P.opRegion op = some (P.parentRegion b)) :
    ¬ P.BlockWithin op b := by
  rintro ⟨o, j, k, ho, hb⟩
  have h₁ := Program.depth_opRegion_lt h
  rw [hb.parentRegion] at h₁
  exact absurd ho.depth_le (not_le.mpr h₁)

theorem Corresponds.left (h : Corresponds P lhs rhs l r) : P.Within lhs l := by
  induction h with
  | root => exact .root
  | nested _ hb p hl _ ih =>
    obtain ⟨j, k, hb, -⟩ := hb
    exact .nested ih hb hl

theorem Corresponds.right (h : Corresponds P lhs rhs l r) : P.Within rhs r :=
  h.symm.left

theorem CorrespondingBlocks.left (h : CorrespondingBlocks P lhs rhs b c) :
    P.BlockWithin lhs b := by
  obtain ⟨l, r, hlr, j, k, hb, -⟩ := h
  exact ⟨l, j, k, hlr.left, hb⟩

theorem CorrespondingBlocks.right (h : CorrespondingBlocks P lhs rhs b c) :
    P.BlockWithin rhs c :=
  h.symm.left

theorem CorrespondingValues.left (h : CorrespondingValues P lhs rhs x y) : P.DefinedIn lhs x := by
  cases h with
  | result h i => exact h.left
  | arg h i => exact h.left

theorem CorrespondingValues.flip (h : CorrespondingValues P lhs rhs x y) :
    CorrespondingValues P rhs lhs y x := by
  cases h with
  | result h i => exact .result h.symm i
  | arg h i => exact .arg h.symm i

theorem CorrespondingValues.right (h : CorrespondingValues P lhs rhs x y) : P.DefinedIn rhs y :=
  h.flip.left

variable [DecidableEq Op]

theorem CorrespondingValues.unique {z : Value Op Blk} (h : CorrespondingValues P lhs rhs x y)
    (h' : CorrespondingValues P lhs rhs x z) : y = z := by
  cases h with
  | result h i =>
    cases h' with
    | result h' _ => rw [h.unique h']
  | arg h i =>
    cases h' with
    | arg h' _ => rw [h.unique h']

end Within

/-! ## Isomorphic operations -/

/-- Two successors correspond, or are the same block outside of the compared operations. -/
def SameSuccessor (P : Program Op Blk) (lhs rhs : Op) (b c : Blk) : Prop :=
  CorrespondingBlocks P lhs rhs b c ∨ (¬ P.BlockWithin lhs b ∧ ¬ P.BlockWithin rhs c ∧ b = c)

/-- Two corresponding operations match, apart from their operands. -/
structure OpsMatch (P : Program Op Blk) (lhs rhs l r : Op) : Prop where
  alike : Alike P l r
  attrs : P.attrs l = P.attrs r
  numSuccessors : (P.successors l).length = (P.successors r).length
  successors : ∀ (i : ℕ) b c, (P.successors l)[i]? = some b → (P.successors r)[i]? = some c →
    SameSuccessor P lhs rhs b c
  argTypes : ∀ b c, P.SameBlock l r b c → P.argTypes b = P.argTypes c
  numOps : ∀ b c, P.SameBlock l r b c → (P.ops b).length = (P.ops c).length

/-- **The positional correspondence is a structural isomorphism.** -/
def Isomorphic (P : Program Op Blk) (lhs rhs : Op) : Prop :=
  ∀ l r, Corresponds P lhs rhs l r → OpsMatch P lhs rhs l r

section Isomorphic

variable {lhs mid rhs : Op} {b c d : Blk} {x y z : Value Op Blk}

theorem Alike.trans {l m r : Op} (h : Alike P l m) (h' : Alike P m r) : Alike P l r where
  kind := h.kind.trans h'.kind
  resultTypes := h.resultTypes.trans h'.resultTypes
  operands := h.operands.trans h'.operands
  regions := h.regions.trans h'.regions
  blocks j bs ds hj hj' := by
    have hlt : j < (P.regions m).length := h.regions ▸ (List.getElem?_eq_some_iff.mp hj).1
    have hm := List.getElem?_eq_getElem hlt
    exact (h.blocks j bs _ hj hm).trans (h'.blocks j _ ds hm hj')

/-- Every operation inside has a counterpart. -/
theorem Isomorphic.counterpart (h : Isomorphic P lhs rhs) {l : Op} (hl : P.Within lhs l) :
    ∃ r, Corresponds P lhs rhs l r := by
  induction hl with
  | root => exact ⟨rhs, .root⟩
  | @nested o o' j k p b _ hb hp ih =>
    obtain ⟨r, hr⟩ := ih
    obtain ⟨c, hc⟩ := (h o r hr).alike.blockAt hb
    have hlen := (h o r hr).numOps b c ⟨j, k, hb, hc⟩
    have hlt : p < (P.ops c).length := hlen ▸ (List.getElem?_eq_some_iff.mp hp).1
    exact ⟨(P.ops c)[p], .nested hr ⟨j, k, hb, hc⟩ p hp (List.getElem?_eq_getElem hlt)⟩

theorem Isomorphic.block (h : Isomorphic P lhs rhs) (hb : P.BlockWithin lhs b) :
    ∃ c, CorrespondingBlocks P lhs rhs b c := by
  obtain ⟨o, j, k, ho, hb⟩ := hb
  obtain ⟨r, hr⟩ := h.counterpart ho
  obtain ⟨c, hc⟩ := (h o r hr).alike.blockAt hb
  exact ⟨c, o, r, hr, j, k, hb, hc⟩

theorem Isomorphic.value (h : Isomorphic P lhs rhs) (hx : P.DefinedIn lhs x) :
    ∃ y, CorrespondingValues P lhs rhs x y := by
  cases x with
  | result o i =>
    obtain ⟨r, hr⟩ := h.counterpart hx
    exact ⟨_, .result hr i⟩
  | arg b i =>
    obtain ⟨c, hc⟩ := h.block hx
    exact ⟨_, .arg hc i⟩

/-- The counterpart of a value exists if the value does. -/
theorem Isomorphic.valid (h : Isomorphic P lhs rhs) (hxy : CorrespondingValues P lhs rhs x y) :
    P.Valid x ↔ P.Valid y := by
  cases hxy with
  | @result l r hlr i =>
    simp only [Program.Valid, Program.numResults, (h l r hlr).alike.resultTypes]
  | @arg b c hbc i =>
    obtain ⟨l, r, hlr, hbc⟩ := hbc
    simp only [Program.Valid, Program.numArgs, (h l r hlr).argTypes b c hbc]

theorem Isomorphic.symm (h : Isomorphic P lhs rhs) : Isomorphic P rhs lhs := by
  intro r l hrl
  obtain ⟨halike, hattrs, hnum, hsucc, hargs, hops⟩ := h l r hrl.symm
  refine ⟨halike.symm, hattrs.symm, hnum.symm, fun i c b hc hb => ?_, fun c b hcb => ?_,
    fun c b hcb => ?_⟩
  · rcases hsucc i b c hb hc with hbc | ⟨hb', hc', heq⟩
    · exact Or.inl hbc.symm
    · exact Or.inr ⟨hc', hb', heq.symm⟩
  · exact (hargs b c hcb.symm).symm
  · exact (hops b c hcb.symm).symm

/-- What corresponds to what corresponds, corresponds. -/
theorem Corresponds.comp {l m r : Op} (h : Corresponds P lhs mid l m)
    (h' : Corresponds P mid rhs m r) : Corresponds P lhs rhs l r := by
  induction h generalizing r with
  | root =>
    cases h' with
    | root => exact .root
    | nested h' hb p hl _ =>
      obtain ⟨j, k, hb, -⟩ := hb
      exact absurd h'.depth_le (not_le.mpr (Program.depth_lt_of_nested hb hl))
  | @nested l m l' m' b c _ hb p hl hm ih =>
    obtain ⟨j, k, hb, hc⟩ := hb
    cases h' with
    | root =>
      rename_i h₀
      exact absurd (h₀.symm.depth_le) (not_le.mpr (Program.depth_lt_of_nested hc hm))
    | @nested m₂ r₂ _ _ c₂ d h' hb' p' hm' hr =>
      obtain ⟨j', k', hc', hd⟩ := hb'
      obtain ⟨rfl, rfl⟩ := Program.ops_unique hm hm'
      obtain ⟨rfl, rfl, rfl⟩ := hc.unique hc'
      exact .nested (ih h') ⟨j, k, hb, hd⟩ p hl hr

theorem CorrespondingBlocks.comp (h : CorrespondingBlocks P lhs mid b c)
    (h' : CorrespondingBlocks P mid rhs c d) : CorrespondingBlocks P lhs rhs b d := by
  obtain ⟨l, m, hlm, j, k, hb, hc⟩ := h
  obtain ⟨m', r, hmr, j', k', hc', hd⟩ := h'
  obtain ⟨rfl, rfl, rfl⟩ := hc.unique hc'
  exact ⟨l, r, hlm.comp hmr, j, k, hb, hd⟩

theorem CorrespondingValues.comp (h : CorrespondingValues P lhs mid x y)
    (h' : CorrespondingValues P mid rhs y z) : CorrespondingValues P lhs rhs x z := by
  cases h with
  | result h i =>
    cases h' with
    | result h' _ => exact .result (h.comp h') i
  | arg h i =>
    cases h' with
    | arg h' _ => exact .arg (h.comp h') i

variable [DecidableEq Op]

theorem Isomorphic.trans (h : Isomorphic P lhs mid) (h' : Isomorphic P mid rhs) :
    Isomorphic P lhs rhs := by
  intro l r hlr
  obtain ⟨m, hlm⟩ := h.counterpart hlr.left
  obtain ⟨r', hmr⟩ := h'.counterpart hlm.right
  obtain rfl := hlr.unique (hlm.comp hmr)
  have h₁ := h l m hlm
  have h₂ := h' m r hmr
  -- Blocks at one place of the outer operations have a block at that place of the one between.
  have between : ∀ b d, P.SameBlock l r b d → ∃ c, P.SameBlock l m b c ∧ P.SameBlock m r c d := by
    rintro b d ⟨j, k, hb, hd⟩
    obtain ⟨c, hc⟩ := h₁.alike.blockAt hb
    exact ⟨c, ⟨j, k, hb, hc⟩, ⟨j, k, hc, hd⟩⟩
  refine ⟨h₁.alike.trans h₂.alike, h₁.attrs.trans h₂.attrs,
    h₁.numSuccessors.trans h₂.numSuccessors, fun i b d hb hd => ?_, fun b d hbd => ?_,
    fun b d hbd => ?_⟩
  · have hlt : i < (P.successors m).length :=
      h₁.numSuccessors ▸ (List.getElem?_eq_some_iff.mp hb).1
    have hc := List.getElem?_eq_getElem hlt
    rcases h₁.successors i b _ hb hc with hbc | ⟨hb', hc', hbc⟩
    · rcases h₂.successors i _ d hc hd with hcd | ⟨hc', -, -⟩
      · exact Or.inl (hbc.comp hcd)
      · exact absurd hbc.right hc'
    · rcases h₂.successors i _ d hc hd with hcd | ⟨-, hd', hcd⟩
      · exact absurd hcd.left hc'
      · exact Or.inr ⟨hb', hd', hbc.trans hcd⟩
  · obtain ⟨c, hbc, hcd⟩ := between b d hbd
    exact (h₁.argTypes b c hbc).trans (h₂.argTypes c d hcd)
  · obtain ⟨c, hbc, hcd⟩ := between b d hbd
    exact (h₁.numOps b c hbc).trans (h₂.numOps c d hcd)

end Isomorphic

/-! ## The first pass -/

/-- How many operations are nested more deeply than `op`. -/
def Program.numDeeper [Fintype Op] (P : Program Op Blk) (op : Op) : ℕ :=
  (Finset.univ.filter fun o => P.depth op < P.depth o).card

theorem Program.numDeeper_lt [Fintype Op] {op o : Op} (h : P.depth op < P.depth o) :
    P.numDeeper o < P.numDeeper op := by
  refine Finset.card_lt_card (Finset.ssubset_iff_of_subset (fun x hx => ?_) |>.mpr ⟨o, ?_, ?_⟩)
  · simp only [Finset.mem_filter, Finset.mem_univ, true_and] at hx ⊢
    exact h.trans hx
  · simpa using h
  · simp

theorem Program.numDeeper_le [Fintype Op] (op : Op) : P.numDeeper op ≤ Fintype.card Op :=
  Finset.card_le_univ _

namespace Matching

variable {lhs rhs : Op} {m m' m'' : Matching Op Blk}

section

variable [DecidableEq Op] [DecidableEq Blk]

/-- A matching records only what corresponds. -/
structure Sound (P : Program Op Blk) (lhs rhs : Op) (m : Matching Op Blk) : Prop where
  blocks : ∀ b c, m.blocks.lookup b = some c → CorrespondingBlocks P lhs rhs b c
  values : ∀ x y, m.values.lookup x = some y → CorrespondingValues P lhs rhs x y
  rhsValues : ∀ y ∈ m.rhsValues, P.DefinedIn rhs y
  mapped : ∀ x y, m.values.lookup x = some y → y ∈ m.rhsValues

/-- The blocks mapped stay mapped. -/
def KeepsBlocks (m m' : Matching Op Blk) : Prop :=
  ∀ b c, m.blocks.lookup b = some c → m'.blocks.lookup b = some c

omit [DecidableEq Op] in
theorem KeepsBlocks.trans (h : m.KeepsBlocks m') (h' : m'.KeepsBlocks m'') : m.KeepsBlocks m'' :=
  fun b c hb => h' b c (h b c hb)

/-- The blocks of the region `l` is in are mapped, unless `l` is the operation that is compared. -/
def Ready (P : Program Op Blk) (lhs rhs : Op) (m : Matching Op Blk) (l r : Op) : Prop :=
  ∀ b, P.opRegion l = some (P.parentRegion b) →
    (∃ c, m.blocks.lookup b = some c) ∨ l = lhs ∧ r = rhs ∧ m.blocks.lookup b = none

/-- A step of the pass succeeds if and only if `D`, and then records only what corresponds. -/
structure Decides (P : Program Op Blk) (lhs rhs : Op) (m : Matching Op Blk)
    (r : Option (Matching Op Blk)) (D : Prop) : Prop where
  yes : ∀ m', r = some m' → m'.Sound P lhs rhs ∧ m.KeepsBlocks m' ∧ D
  no : r = none → ¬ D

theorem Decides.fail {D : Prop} (h : ¬ D) : Decides P lhs rhs m none D :=
  ⟨by simp, fun _ => h⟩

/-- All pairs of two lists are decided one after the other. -/
theorem allOfZip_decides {α β : Type} {f : Matching Op Blk → α → β → Option (Matching Op Blk)}
    {D : α → β → Prop} {as : List α} {bs : List β}
    (hf : ∀ (p : ℕ) a b m₁, as[p]? = some a → bs[p]? = some b → m₁.Sound P lhs rhs →
      m.KeepsBlocks m₁ → Decides P lhs rhs m₁ (f m₁ a b) (D a b)) (hm : m.Sound P lhs rhs) :
    Decides P lhs rhs m (allOfZip f m as bs)
      (as.length = bs.length ∧ ∀ (p : ℕ) a b, as[p]? = some a → bs[p]? = some b → D a b) := by
  induction as generalizing bs m with
  | nil =>
    cases bs with
    | nil =>
      refine ⟨fun m' h => ?_, by simp [allOfZip]⟩
      obtain rfl : m = m' := by simpa [allOfZip] using h
      exact ⟨hm, fun _ _ h => h, rfl, by simp⟩
    | cons b bs => exact .fail (by simp)
  | cons a as ih =>
    cases bs with
    | nil => exact .fail (by simp)
    | cons b bs =>
      have hfirst := hf 0 a b m rfl rfl hm fun _ _ h => h
      rw [allOfZip]
      cases hfm : f m a b with
      | none => exact .fail fun h => hfirst.no hfm (h.2 0 a b rfl rfl)
      | some m₁ =>
        obtain ⟨hm₁, hkeep, hab⟩ := hfirst.yes m₁ hfm
        have hrest : Decides P lhs rhs m₁ (allOfZip f m₁ as bs) _ :=
          ih (fun p x y m₂ hx hy hm₂ hkeep₂ =>
          hf (p + 1) x y m₂ hx hy hm₂ (hkeep.trans hkeep₂)) hm₁
        refine ⟨fun m' h => ?_, fun h hall => hrest.no h ⟨by simpa using hall.1, fun p x y hx hy =>
          hall.2 (p + 1) x y hx hy⟩⟩
        obtain ⟨hm', hkeep', hlen, hall⟩ := hrest.yes m' h
        refine ⟨hm', hkeep.trans hkeep', by simpa using hlen, fun p x y hx hy => ?_⟩
        cases p with
        | zero =>
          obtain rfl : a = x := Option.some.inj hx
          obtain rfl : b = y := Option.some.inj hy
          exact hab
        | succ p => exact hall p x y hx hy

/-- Mapping values that correspond keeps a matching sound. -/
theorem Sound.mapValues (hm : m.Sound P lhs rhs) {xs ys : List (Value Op Blk)}
    (h : ∀ (i : ℕ) x y, xs[i]? = some x → ys[i]? = some y → CorrespondingValues P lhs rhs x y)
    (hlen : xs.length = ys.length) : (m.mapValues xs ys).Sound P lhs rhs where
  blocks := hm.blocks
  values x y hx := by
    have hzip : ∀ p ∈ xs.zip ys, CorrespondingValues P lhs rhs p.1 p.2 := by
      rintro ⟨x, y⟩ hp
      obtain ⟨i, hi⟩ := List.mem_iff_getElem?.mp hp
      rw [List.getElem?_zip_eq_some] at hi
      exact h i x y hi.1 hi.2
    exact ((mapValues_spec xs ys hzip).1.values x y hx).elim (hm.values x y) id
  rhsValues y hy := by
    rcases List.mem_append.mp hy with hy | hy
    · exact hm.rhsValues y hy
    · obtain ⟨i, hi⟩ := List.mem_iff_getElem?.mp hy
      have hlt : i < xs.length := hlen ▸ (List.getElem?_eq_some_iff.mp hi).1
      exact (h i _ y (List.getElem?_eq_getElem hlt) hi).right
  mapped x y hx := by
    have hlook : (m.mapValues xs ys).values.lookup x = (m.values.lookup x).or
        (((xs.zip ys).find? fun p => p.1 = x).map Prod.snd) := DenseMap.lookup_tryEmplaceAll _ _ _
    rw [hlook, Option.or_eq_some_iff] at hx
    rcases hx with hx | ⟨-, hx⟩
    · exact List.mem_append_left _ (hm.mapped x y hx)
    · obtain ⟨p, hp, rfl⟩ := Option.map_eq_some_iff.mp hx
      exact List.mem_append_right _ (List.of_mem_zip (List.mem_of_find?_eq_some hp)).2

end

theorem getElem?_results_eq {op : Op} {i : ℕ} {x : Value Op Blk}
    (h : (P.results op)[i]? = some x) : x = .result op i := by
  simp only [Program.results, List.getElem?_map, Option.map_eq_some_iff,
    List.getElem?_eq_some_iff, List.length_range, List.getElem_range] at h
  obtain ⟨_, ⟨_, rfl⟩, rfl⟩ := h
  rfl

theorem getElem?_arguments_eq {b : Blk} {i : ℕ} {x : Value Op Blk}
    (h : (P.arguments b)[i]? = some x) : x = .arg b i := by
  simp only [Program.arguments, List.getElem?_map, Option.map_eq_some_iff,
    List.getElem?_eq_some_iff, List.length_range, List.getElem_range] at h
  obtain ⟨_, ⟨_, rfl⟩, rfl⟩ := h
  rfl

variable [DecidableEq Op] [DecidableEq Blk]

/-- The successors of two operations are compared rightly once the blocks around them are mapped. -/
theorem successorsMatch_iff (hP : P.WellFormed) (hm : m.Sound P lhs rhs) {l r : Op}
    (hready : m.Ready P lhs rhs l r) :
    m.successorsMatch (P.successors l) (P.successors r) = true ↔
      ∀ (i : ℕ) b c, (P.successors l)[i]? = some b → (P.successors r)[i]? = some c →
        SameSuccessor P lhs rhs b c := by
  have one : ∀ (i : ℕ) b c, (P.successors l)[i]? = some b → (P.successors r)[i]? = some c →
      ((m.blocks.lookup b).getD b = c ↔ SameSuccessor P lhs rhs b c) := by
    intro i b c hb hc
    have hregion := hP.successor l b (List.mem_of_getElem? hb)
    have hregion' := hP.successor r c (List.mem_of_getElem? hc)
    rcases hready b hregion with ⟨c', hc'⟩ | ⟨rfl, rfl, hnone⟩
    · have hcorr := hm.blocks b c' hc'
      rw [hc', Option.getD_some]
      constructor
      · rintro rfl
        exact Or.inl hcorr
      · rintro (h | ⟨h, -, -⟩)
        · exact hcorr.unique h
        · exact absurd hcorr.left h
    · rw [hnone, Option.getD_none]
      constructor
      · rintro rfl
        exact Or.inr ⟨Program.not_blockWithin hregion, Program.not_blockWithin hregion', rfl⟩
      · rintro (h | ⟨-, -, h⟩)
        · exact absurd h.left (Program.not_blockWithin hregion)
        · exact h
  rw [successorsMatch, List.all_eq_true]
  constructor
  · intro h i b c hb hc
    refine (one i b c hb hc).mp (of_decide_eq_true (h (b, c) ?_))
    exact List.mem_of_getElem? (i := i) (List.getElem?_zip_eq_some.mpr ⟨hb, hc⟩)
  · rintro h ⟨b, c⟩ hp
    obtain ⟨i, hi⟩ := List.mem_iff_getElem?.mp hp
    obtain ⟨hb, hc⟩ := List.getElem?_zip_eq_some.mp hi
    exact decide_eq_true ((one i b c hb hc).mpr (h i b c hb hc))

/-- Everything at one place below `l` and `r` matches. -/
def MatchBelow (P : Program Op Blk) (lhs rhs l r : Op) : Prop :=
  ∀ l' r', Corresponds P l r l' r' → OpsMatch P lhs rhs l' r'

/-- Two blocks match, with everything in them. -/
def MatchWithin (P : Program Op Blk) (lhs rhs : Op) (b c : Blk) : Prop :=
  P.argTypes b = P.argTypes c ∧ (P.ops b).length = (P.ops c).length ∧
    ∀ (p : ℕ) l r, (P.ops b)[p]? = some l → (P.ops c)[p]? = some r → MatchBelow P lhs rhs l r

section Levels

variable {matchOp : Matching Op Blk → Op → Op → Option (Matching Op Blk)} {n : ℕ}

theorem matchBlock_decides
    (hop : ∀ m l r, n < P.depth l → Corresponds P lhs rhs l r → m.Sound P lhs rhs →
      m.Ready P lhs rhs l r → Decides P lhs rhs m (matchOp m l r) (MatchBelow P lhs rhs l r))
    {b c : Blk} (hbc : CorrespondingBlocks P lhs rhs b c) (hn : P.depth (P.parentRegion b).op = n)
    (hm : m.Sound P lhs rhs)
    (hmapped : ∀ b', P.parentRegion b' = P.parentRegion b → ∃ c', m.blocks.lookup b' = some c') :
    Decides P lhs rhs m (matchBlock P matchOp m b c) (MatchWithin P lhs rhs b c) := by
  rw [matchBlock]
  split
  · next hargs => exact .fail fun h => hargs h.1
  · next hargs =>
    rw [not_not] at hargs
    have hlen : (P.arguments b).length = (P.arguments c).length := by
      simp [Program.arguments, Program.numArgs, hargs]
    have hm₁ : (m.mapValues (P.arguments b) (P.arguments c)).Sound P lhs rhs :=
      hm.mapValues (fun i x y hx hy => by
        rw [getElem?_arguments_eq hx, getElem?_arguments_eq hy]
        exact .arg hbc i) hlen
    obtain ⟨l₀, r₀, hlr, hsame⟩ := hbc
    have hall : Decides P lhs rhs _ (allOfZip matchOp
        (m.mapValues (P.arguments b) (P.arguments c)) (P.ops b) (P.ops c)) _ :=
      allOfZip_decides (D := MatchBelow P lhs rhs) (fun p l r m₂ hl hr hm₂ hkeep => by
        have hblock := (P.mem_ops_iff l b).mp (List.mem_of_getElem? hl)
        have hregion : P.opRegion l = some (P.parentRegion b) := by simp [Program.opRegion, hblock]
        refine hop m₂ l r (hn ▸ P.depth_lt l b hblock) (.nested hlr hsame p hl hr)
          hm₂ fun b' hb' => ?_
        obtain ⟨c', hc'⟩ := hmapped b' (Option.some.inj (hb'.symm.trans hregion))
        exact Or.inl ⟨c', hkeep b' c' hc'⟩) hm₁
    refine ⟨fun m' h => ?_, fun h hD => hall.no h ⟨hD.2.1, hD.2.2⟩⟩
    obtain ⟨hm', hkeep, hD⟩ := hall.yes m' h
    exact ⟨hm', hkeep, hargs, hD⟩

theorem matchRegion_decides
    (hop : ∀ m l r, n < P.depth l → Corresponds P lhs rhs l r → m.Sound P lhs rhs →
      m.Ready P lhs rhs l r → Decides P lhs rhs m (matchOp m l r) (MatchBelow P lhs rhs l r))
    {l r : Op} {j : ℕ} {bs cs : List Blk} (hlr : Corresponds P lhs rhs l r) (hn : P.depth l = n)
    (hbs : (P.regions l)[j]? = some bs) (hcs : (P.regions r)[j]? = some cs)
    (hm : m.Sound P lhs rhs) :
    Decides P lhs rhs m (matchRegion P matchOp m bs cs)
      (bs.length = cs.length ∧ ∀ (k : ℕ) b c, bs[k]? = some b → cs[k]? = some c →
        MatchWithin P lhs rhs b c) := by
  have hblock : ∀ (k : ℕ) b, bs[k]? = some b → P.BlockAt l j k b := fun k b hb => by
    simp [Program.BlockAt, hbs, hb]
  have hcorr : ∀ (k : ℕ) b c, bs[k]? = some b → cs[k]? = some c →
      CorrespondingBlocks P lhs rhs b c := fun k b c hb hc =>
    ⟨l, r, hlr, j, k, hblock k b hb, by simp [Program.BlockAt, hcs, hc]⟩
  rw [matchRegion]
  split
  · next hlen => exact .fail fun h => hlen h.1
  · next hlen =>
    rw [not_not] at hlen
    have lookup : ∀ b, (DenseMap.tryEmplaceAll m.blocks (bs.zip cs)).lookup b =
        (m.blocks.lookup b).or (((bs.zip cs).find? fun p => p.1 = b).map Prod.snd) := fun b =>
      DenseMap.lookup_tryEmplaceAll _ _ _
    have hkeep :
        m.KeepsBlocks { m with blocks := DenseMap.tryEmplaceAll m.blocks (bs.zip cs) } := by
      intro b c hb
      rw [lookup, hb]
      rfl
    have hm₁ : Sound P lhs rhs
        { m with blocks := DenseMap.tryEmplaceAll m.blocks (bs.zip cs) } := by
      refine ⟨fun b c hb => ?_, hm.values, hm.rhsValues, hm.mapped⟩
      rw [lookup, Option.or_eq_some_iff] at hb
      rcases hb with hb | ⟨-, hb⟩
      · exact hm.blocks b c hb
      · obtain ⟨⟨b', c'⟩, hp, rfl⟩ := Option.map_eq_some_iff.mp hb
        obtain rfl : b' = b := by simpa using List.find?_some hp
        obtain ⟨k, hk⟩ := List.mem_iff_getElem?.mp (List.mem_of_find?_eq_some hp)
        obtain ⟨hb', hc'⟩ := List.getElem?_zip_eq_some.mp hk
        exact hcorr k b' c' hb' hc'
    -- All blocks of the region are mapped before any operation in it is looked at.
    have hmapped : ∀ b, P.parentRegion b = ⟨l, j⟩ →
        ∃ c, (DenseMap.tryEmplaceAll m.blocks (bs.zip cs)).lookup b = some c := by
      intro b hb
      have hmem := P.mem_region b
      simp only [hb, hbs, Option.getD_some] at hmem
      obtain ⟨k, hk⟩ := List.mem_iff_getElem?.mp hmem
      have hlt : k < cs.length := hlen ▸ (List.getElem?_eq_some_iff.mp hk).1
      have hzip : (b, cs[k]) ∈ bs.zip cs :=
        List.mem_of_getElem? (i := k)
          (List.getElem?_zip_eq_some.mpr ⟨hk, List.getElem?_eq_getElem hlt⟩)
      have hfind : ((bs.zip cs).find? fun p => p.1 = b).isSome = true := by
        rw [List.find?_isSome]
        exact ⟨_, hzip, by simp⟩
      rw [lookup, ← Option.isSome_iff_exists, Option.isSome_or, Option.isSome_map, hfind,
        Bool.or_true]
    have hall : Decides P lhs rhs _ (allOfZip (matchBlock P matchOp)
        { m with blocks := DenseMap.tryEmplaceAll m.blocks (bs.zip cs) } bs cs) _ :=
      allOfZip_decides (D := MatchWithin P lhs rhs) (fun k b c m₂ hb hc hm₂ hkeep₂ => by
        have hregion := (hblock k b hb).parentRegion
        refine matchBlock_decides hop (hcorr k b c hb hc) (by rw [hregion]; exact hn) hm₂ ?_
        intro b' hb'
        obtain ⟨c', hc'⟩ := hmapped b' (hb'.trans hregion)
        exact ⟨c', hkeep₂ b' c' hc'⟩) hm₁
    refine ⟨fun m' h => ?_, hall.no⟩
    obtain ⟨hm', hkeep', hD⟩ := hall.yes m' h
    exact ⟨hm', hkeep.trans hkeep', hD⟩

end Levels

variable [Fintype Op]

/-- **The first pass decides structural isomorphism**, for any bound that exceeds the nesting. -/
theorem matchOperation_decides (hP : P.WellFormed) {fuel : ℕ} {l r : Op}
    (hfuel : P.numDeeper l < fuel) (hlr : Corresponds P lhs rhs l r) (hm : m.Sound P lhs rhs)
    (hready : m.Ready P lhs rhs l r) :
    Decides P lhs rhs m (matchOperation P fuel m l r) (MatchBelow P lhs rhs l r) := by
  induction fuel generalizing m l r with
  | zero => omega
  | succ fuel ih =>
    rw [matchOperation]
    split
    · next hhead =>
      refine .fail fun h => ?_
      obtain ⟨halike, hattrs, hnum, -⟩ := h l r .root
      simp [halike.kind, halike.regions, hnum, halike.operands, halike.resultTypes, hattrs] at hhead
    · next hhead =>
      push Not at hhead
      obtain ⟨hname, hregions, hnum, hoperands, htypes, hattrs, hprops⟩ := hhead
      split
      · next hsucc =>
        rw [successorsMatch_iff hP hm hready] at hsucc
        have hlen : (P.results l).length = (P.results r).length := by
          simp [Program.results, Program.numResults, htypes]
        have hm₁ : (m.mapValues (P.results l) (P.results r)).Sound P lhs rhs :=
          hm.mapValues (fun i x y hx hy => by
            rw [getElem?_results_eq hx, getElem?_results_eq hy]
            exact .result hlr i) hlen
        have hall : Decides P lhs rhs _ (allOfZip (matchRegion P (matchOperation P fuel))
            { m.mapValues (P.results l) (P.results r) with
              ops := (m.mapValues (P.results l) (P.results r)).ops ++ [(l, r)] }
            (P.regions l) (P.regions r)) _ := allOfZip_decides
          (fun j bs cs m₂ hbs hcs hm₂ _ => matchRegion_decides (n := P.depth l)
            (fun m l' r' hdepth hlr' hm hready =>
              ih (lt_of_lt_of_le (Program.numDeeper_lt hdepth) (Nat.lt_succ_iff.mp hfuel)) hlr' hm
                hready) hlr rfl hbs hcs hm₂)
          ⟨hm₁.blocks, hm₁.values, hm₁.rhsValues, hm₁.mapped⟩
        refine ⟨fun m' h => ?_, fun h hD => hall.no h ?_⟩
        · obtain ⟨hm', hkeep, -, hD⟩ := hall.yes m' h
          have below : ∀ b c, P.SameBlock l r b c → MatchWithin P lhs rhs b c := by
            rintro b c ⟨j, k, hb, hc⟩
            obtain ⟨bs, hbs, hb⟩ := hb.mem
            obtain ⟨cs, hcs, hc⟩ := hc.mem
            exact (hD j bs cs hbs hcs).2 k b c hb hc
          refine ⟨hm', hkeep, fun l' r' h' => ?_⟩
          rcases h'.cases_head with ⟨rfl, rfl⟩ | ⟨b, c, hbc, p, l₁, r₁, hl₁, hr₁, h₁⟩
          · exact ⟨⟨OpKind.eq_of_name_eq hname hprops, htypes, hoperands, hregions,
              fun j bs cs hbs hcs => (hD j bs cs hbs hcs).1⟩, hattrs, hnum, hsucc,
              fun b c hbc => (below b c hbc).1, fun b c hbc => (below b c hbc).2.1⟩
          · exact (below b c hbc).2.2 p l₁ r₁ hl₁ hr₁ l' r' h₁
        · refine ⟨hregions, fun j bs cs hbs hcs => ?_⟩
          have hroot := hD l r .root
          have same : ∀ (k : ℕ) b c, bs[k]? = some b → cs[k]? = some c → P.SameBlock l r b c :=
            fun k b c hb hc => ⟨j, k, by simp [Program.BlockAt, hbs, hb],
              by simp [Program.BlockAt, hcs, hc]⟩
          refine ⟨hroot.alike.blocks j bs cs hbs hcs, fun k b c hb hc => ?_⟩
          have hbc := same k b c hb hc
          exact ⟨hroot.argTypes b c hbc, hroot.numOps b c hbc, fun p l₁ r₁ hl₁ hr₁ l' r' h' =>
            hD l' r' (Corresponds.trans (.nested .root hbc p hl₁ hr₁) h')⟩
      · next hsucc =>
        exact .fail fun h => hsucc ((successorsMatch_iff hP hm hready).mpr (h l r .root).successors)

/-- What a matching of two operations records is exactly what corresponds. -/
structure Exact (P : Program Op Blk) (lhs rhs : Op) (m : Matching Op Blk) : Prop where
  ops : ∀ p, p ∈ m.ops ↔ Corresponds P lhs rhs p.1 p.2
  values : ∀ x y, P.Valid x → (m.values.lookup x = some y ↔ CorrespondingValues P lhs rhs x y)
  rhsValues : ∀ y, P.Valid y → (y ∈ m.rhsValues ↔ P.DefinedIn rhs y)
  mapped : ∀ x y, m.values.lookup x = some y → y ∈ m.rhsValues

omit [Fintype Op] in
theorem empty_sound : (Matching.empty : Matching Op Blk).Sound P lhs rhs :=
  ⟨fun b c h => by simp [Matching.empty] at h, fun x y h => by simp [Matching.empty] at h,
    fun y h => by simp [Matching.empty] at h, fun x y h => by simp [Matching.empty] at h⟩

/-- The pass from the start. -/
theorem check_decides (hP : P.WellFormed) : Decides P lhs rhs Matching.empty
    (matchOperation P (Fintype.card Op + 1) .empty lhs rhs) (Isomorphic P lhs rhs) :=
  matchOperation_decides hP (Nat.lt_succ_of_le (Program.numDeeper_le lhs)) .root empty_sound
    fun b _ => Or.inr ⟨rfl, rfl, by simp [Matching.empty]⟩

/-- Two operations match if and only if they are isomorphic. -/
theorem matchOperation_eq_none_iff (hP : P.WellFormed) :
    matchOperation P (Fintype.card Op + 1) .empty lhs rhs = none ↔ ¬ Isomorphic P lhs rhs := by
  refine ⟨(check_decides hP).no, fun h => ?_⟩
  cases hm : matchOperation P (Fintype.card Op + 1) .empty lhs rhs with
  | none => rfl
  | some m => exact absurd ((check_decides hP).yes m hm).2.2 h

/-- **The matching of isomorphic operations is exact.** -/
theorem matchOperation_exact (hP : P.WellFormed)
    (h : matchOperation P (Fintype.card Op + 1) .empty lhs rhs = some m) :
    Isomorphic P lhs rhs ∧ m.Exact P lhs rhs := by
  obtain ⟨hsound, -, (hiso : Isomorphic P lhs rhs)⟩ := (check_decides hP).yes m h
  obtain ⟨hg, hcovers⟩ := matchOperation_spec (.root : Corresponds P lhs rhs lhs rhs) h
  have recorded : ∀ x y, P.Valid x → CorrespondingValues P lhs rhs x y → m.Recorded x y := by
    intro x y hx hxy
    cases hxy with
    | @result l r hlr i => exact (hcovers l r hlr).results i hx
    | @arg b c hbc i =>
      obtain ⟨l, r, hlr, hbc⟩ := hbc
      exact ((hcovers l r hlr).blocks b c hbc).args i hx
  refine ⟨hiso, fun p => ⟨fun hp => (hg.added p hp).resolve_left (by simp [Matching.empty]),
    fun hp => (hcovers p.1 p.2 hp).mem⟩, fun x y hx => ⟨hsound.values x y, fun hxy => ?_⟩,
    fun y hy => ⟨hsound.rhsValues y, fun hin => ?_⟩, hsound.mapped⟩
  · obtain ⟨z, hz⟩ := Option.isSome_iff_exists.mp (recorded x y hx hxy).1
    rw [hz, (hsound.values x z hz).unique hxy]
  · obtain ⟨x, hxy⟩ := hiso.symm.value hin
    exact (recorded x y ((hiso.valid hxy.flip).mpr hy) hxy.flip).2

end Matching

end MlirInterpreter
