import MlirInterpreter.OperationEquivalence

/-!
# What corresponds in two operations

The first pass of the comparison of two operations with regions.  `Corresponds lhs rhs l r` says
that `l` and `r` are at the same place of the nests below `lhs` and `rhs`; it is a partial bijection
because a program is a forest.

`matchOperation_spec` says that a `Matching` that `matchOperation` returns records what corresponds,
and that what corresponds is of the same kind.
-/

set_option autoImplicit false

namespace MlirInterpreter

variable {Op Blk : Type} {P : Program Op Blk}

/-! ## Places -/

/-- `b` is the block number `k` of the region number `j` of `op`. -/
def Program.BlockAt (P : Program Op Blk) (op : Op) (j k : ℕ) (b : Blk) : Prop :=
  ((P.regions op)[j]?.getD [])[k]? = some b

theorem Program.BlockAt.mem {op : Op} {j k : ℕ} {b : Blk} (h : P.BlockAt op j k b) :
    ∃ blocks, (P.regions op)[j]? = some blocks ∧ blocks[k]? = some b := by
  rw [BlockAt] at h
  cases hj : (P.regions op)[j]? with
  | none => simp [hj] at h
  | some blocks => exact ⟨blocks, rfl, by simpa [hj] using h⟩

theorem Program.BlockAt.parentRegion {op : Op} {j k : ℕ} {b : Blk} (h : P.BlockAt op j k b) :
    P.parentRegion b = ⟨op, j⟩ := by
  obtain ⟨blocks, hj, hk⟩ := h.mem
  refine P.region_of_mem op (blocks, j) ?_ b (List.mem_of_getElem? hk)
  rw [List.mem_zipIdx_iff_getElem?]
  exact hj

/-- A block has one place. -/
theorem Program.BlockAt.unique {op op' : Op} {j j' k k' : ℕ} {b : Blk} (h : P.BlockAt op j k b)
    (h' : P.BlockAt op' j' k' b) : op = op' ∧ j = j' ∧ k = k' := by
  have hr := h.parentRegion.symm.trans h'.parentRegion
  rw [Region.mk.injEq] at hr
  obtain ⟨rfl, rfl⟩ := hr
  obtain ⟨blocks, hj, hk⟩ := h.mem
  obtain ⟨blocks', hj', hk'⟩ := h'.mem
  obtain rfl : blocks = blocks' := by simpa [hj] using hj'
  have hnodup := P.blocks_nodup op blocks (List.mem_of_getElem? hj)
  have hlt := (List.getElem?_eq_some_iff.mp hk).1
  exact ⟨rfl, rfl, (List.getElem?_inj hlt hnodup).mp (hk.trans hk'.symm)⟩

/-- Every block has a place. -/
theorem Program.exists_blockAt (b : Blk) :
    ∃ k, P.BlockAt (P.parentRegion b).op (P.parentRegion b).index k b :=
  List.mem_iff_getElem?.mp (P.mem_region b)

/-- An operation has one place in its block. -/
theorem Program.ops_unique {b b' : Blk} {p p' : ℕ} {op : Op} (h : (P.ops b)[p]? = some op)
    (h' : (P.ops b')[p']? = some op) : b = b' ∧ p = p' := by
  have hb := (P.mem_ops_iff op b).mp (List.mem_of_getElem? h)
  have hb' := (P.mem_ops_iff op b').mp (List.mem_of_getElem? h')
  obtain rfl : b = b' := by simpa [hb] using hb'
  have hlt := (List.getElem?_eq_some_iff.mp h).1
  exact ⟨rfl, (List.getElem?_inj hlt (P.ops_nodup b)).mp (h.trans h'.symm)⟩

/-! ## Correspondence -/

/-- `b` and `c` are at the same place of `l` and `r`. -/
def Program.SameBlock (P : Program Op Blk) (l r : Op) (b c : Blk) : Prop :=
  ∃ j k, P.BlockAt l j k b ∧ P.BlockAt r j k c

/-- Two operations are at the same place of the nests below `lhs` and `rhs`. -/
inductive Corresponds (P : Program Op Blk) (lhs rhs : Op) : Op → Op → Prop
  | root : Corresponds P lhs rhs lhs rhs
  | nested {l r l' r' : Op} {b c : Blk} (h : Corresponds P lhs rhs l r) (hb : P.SameBlock l r b c)
      (p : ℕ) (hl : (P.ops b)[p]? = some l') (hr : (P.ops c)[p]? = some r') :
      Corresponds P lhs rhs l' r'

/-- Two blocks are at the same place of the nests below `lhs` and `rhs`. -/
def CorrespondingBlocks (P : Program Op Blk) (lhs rhs : Op) (b c : Blk) : Prop :=
  ∃ l r, Corresponds P lhs rhs l r ∧ P.SameBlock l r b c

/-- Two values are defined at the same place of the nests below `lhs` and `rhs`. -/
inductive CorrespondingValues (P : Program Op Blk) (lhs rhs : Op) :
    Value Op Blk → Value Op Blk → Prop
  | result {l r : Op} (h : Corresponds P lhs rhs l r) (i : ℕ) :
      CorrespondingValues P lhs rhs (.result l i) (.result r i)
  | arg {b c : Blk} (h : CorrespondingBlocks P lhs rhs b c) (i : ℕ) :
      CorrespondingValues P lhs rhs (.arg b i) (.arg c i)

section Correspondence

variable {lhs rhs : Op}

theorem Program.SameBlock.symm {l r : Op} {b c : Blk} (h : P.SameBlock l r b c) :
    P.SameBlock r l c b :=
  h.imp fun _ => Exists.imp fun _ => And.symm

theorem Corresponds.symm {l r : Op} (h : Corresponds P lhs rhs l r) :
    Corresponds P rhs lhs r l := by
  induction h with
  | root => exact .root
  | nested _ hb p hl hr ih => exact .nested ih hb.symm p hr hl

theorem CorrespondingBlocks.symm {b c : Blk} (h : CorrespondingBlocks P lhs rhs b c) :
    CorrespondingBlocks P rhs lhs c b := by
  obtain ⟨l, r, h, hb⟩ := h
  exact ⟨r, l, h.symm, hb.symm⟩

theorem Corresponds.trans {l r l' r' : Op} (h : Corresponds P lhs rhs l r)
    (h' : Corresponds P l r l' r') : Corresponds P lhs rhs l' r' := by
  induction h' with
  | root => exact h
  | nested _ hb p hl hr ih => exact .nested ih hb p hl hr

/-- What corresponds is the roots, or corresponds below operations in their regions. -/
theorem Corresponds.cases_head {l r : Op} (h : Corresponds P lhs rhs l r) :
    (l = lhs ∧ r = rhs) ∨ ∃ b c, P.SameBlock lhs rhs b c ∧ ∃ (p : ℕ) (l' r' : Op),
      (P.ops b)[p]? = some l' ∧ (P.ops c)[p]? = some r' ∧ Corresponds P l' r' l r := by
  induction h with
  | root => exact Or.inl ⟨rfl, rfl⟩
  | @nested l r l₁ r₁ b c _ hb p hl hr ih =>
    right
    rcases ih with ⟨rfl, rfl⟩ | ⟨b', c', hb', p', l', r', hl', hr', h'⟩
    · exact ⟨b, c, hb, p, l₁, r₁, hl, hr, .root⟩
    · exact ⟨b', c', hb', p', l', r', hl', hr', .nested h' hb p hl hr⟩

theorem Program.depth_lt_of_nested {l l' : Op} {j k p : ℕ} {b : Blk} (hb : P.BlockAt l j k b)
    (hl : (P.ops b)[p]? = some l') : P.depth l < P.depth l' := by
  have := P.depth_lt l' b ((P.mem_ops_iff l' b).mp (List.mem_of_getElem? hl))
  rwa [hb.parentRegion] at this

theorem Corresponds.depth_le {l r : Op} (h : Corresponds P lhs rhs l r) :
    P.depth lhs ≤ P.depth l := by
  induction h with
  | root => exact le_rfl
  | nested _ hb p hl _ ih =>
    obtain ⟨j, k, hb, -⟩ := hb
    exact ih.trans (Program.depth_lt_of_nested hb hl).le

variable [DecidableEq Op]

/-- What an operation corresponds to is unique. -/
theorem Corresponds.unique {l r r' : Op} (h : Corresponds P lhs rhs l r)
    (h' : Corresponds P lhs rhs l r') : r = r' := by
  induction h generalizing r' with
  | root =>
    cases h' with
    | root => rfl
    | nested h hb p hl _ =>
      obtain ⟨j, k, hb, -⟩ := hb
      have := h.depth_le
      have := Program.depth_lt_of_nested hb hl
      omega
  | nested h hb p hl hr ih =>
    obtain ⟨j, k, hb, hc⟩ := hb
    cases h' with
    | root =>
      have := h.depth_le
      have := Program.depth_lt_of_nested hb hl
      omega
    | nested h' hb' p' hl' hr' =>
      obtain ⟨j', k', hb', hc'⟩ := hb'
      obtain ⟨rfl, rfl⟩ := Program.ops_unique hl hl'
      obtain ⟨rfl, rfl, rfl⟩ := hb.unique hb'
      obtain rfl := ih h'
      obtain rfl : _ = _ := Option.some.inj (hc.symm.trans hc')
      exact Option.some.inj (hr.symm.trans hr')

theorem CorrespondingBlocks.unique {b c c' : Blk} (h : CorrespondingBlocks P lhs rhs b c)
    (h' : CorrespondingBlocks P lhs rhs b c') : c = c' := by
  obtain ⟨l, r, h, j, k, hb, hc⟩ := h
  obtain ⟨l', r', h', j', k', hb', hc'⟩ := h'
  obtain ⟨rfl, rfl, rfl⟩ := hb.unique hb'
  obtain rfl := h.unique h'
  exact Option.some.inj (hc.symm.trans hc')

end Correspondence

/-! ## What a matching records -/

/-- Two operations with equal heads, as far as their evaluation depends on them. -/
structure Alike (P : Program Op Blk) (l r : Op) : Prop where
  kind : P.kind l = P.kind r
  resultTypes : P.resultTypes l = P.resultTypes r
  operands : (P.operands l).length = (P.operands r).length
  regions : (P.regions l).length = (P.regions r).length
  blocks : ∀ (j : ℕ) bs cs, (P.regions l)[j]? = some bs → (P.regions r)[j]? = some cs →
    bs.length = cs.length

theorem Alike.symm {l r : Op} (h : Alike P l r) : Alike P r l where
  kind := h.kind.symm
  resultTypes := h.resultTypes.symm
  operands := h.operands.symm
  regions := h.regions.symm
  blocks j bs cs hj hj' := (h.blocks j cs bs hj' hj).symm

theorem Alike.blockAt {l r : Op} (h : Alike P l r) {j k : ℕ} {b : Blk} (hb : P.BlockAt l j k b) :
    ∃ c, P.BlockAt r j k c := by
  obtain ⟨bs, hj, hk⟩ := hb.mem
  have hj' : j < (P.regions r).length := h.regions ▸ (List.getElem?_eq_some_iff.mp hj).1
  have hlen := h.blocks j bs _ hj (List.getElem?_eq_getElem hj')
  have hk' : k < (P.regions r)[j].length := hlen ▸ (List.getElem?_eq_some_iff.mp hk).1
  exact ⟨(P.regions r)[j][k], by simp [Program.BlockAt, hj', hk']⟩

variable [DecidableEq Op] [DecidableEq Blk]

namespace Matching

/-- The values of a pair are recorded. -/
def Recorded (m : Matching Op Blk) (x y : Value Op Blk) : Prop :=
  (m.values.lookup x).isSome = true ∧ y ∈ m.rhsValues

/-- A pair of blocks was matched. -/
structure CoversBlock (P : Program Op Blk) (m : Matching Op Blk) (b c : Blk) : Prop where
  argTypes : P.argTypes b = P.argTypes c
  ops : (P.ops b).length = (P.ops c).length
  args : ∀ i < P.numArgs b, m.Recorded (.arg b i) (.arg c i)

/-- A pair of operations was matched. -/
structure Covers (P : Program Op Blk) (m : Matching Op Blk) (l r : Op) : Prop where
  mem : (l, r) ∈ m.ops
  alike : Alike P l r
  results : ∀ i < P.numResults l, m.Recorded (.result l i) (.result r i)
  blocks : ∀ b c, P.SameBlock l r b c → m.CoversBlock P b c

/-- A later state of a matching of `lhs` and `rhs`: only what corresponds was added. -/
structure Grows (P : Program Op Blk) (lhs rhs : Op) (m m' : Matching Op Blk) : Prop where
  ops : m.ops ⊆ m'.ops
  added : ∀ p ∈ m'.ops, p ∈ m.ops ∨ Corresponds P lhs rhs p.1 p.2
  recorded : ∀ x y, m.Recorded x y → m'.Recorded x y
  values : ∀ x y, m'.values.lookup x = some y → m.values.lookup x = some y ∨
    CorrespondingValues P lhs rhs x y

variable {lhs rhs : Op} {m m' m'' : Matching Op Blk}

theorem Grows.refl : Grows P lhs rhs m m :=
  ⟨fun _ h => h, fun _ h => Or.inl h, fun _ _ h => h, fun _ _ h => Or.inl h⟩

theorem Grows.trans (h : Grows P lhs rhs m m') (h' : Grows P lhs rhs m' m'') :
    Grows P lhs rhs m m'' where
  ops := List.Subset.trans h.ops h'.ops
  added p hp := (h'.added p hp).elim (h.added p) Or.inr
  recorded x y hx := h'.recorded x y (h.recorded x y hx)
  values x y hx := (h'.values x y hx).elim (h.values x y) Or.inr

theorem CoversBlock.mono {b c : Blk} (hg : Grows P lhs rhs m m') (h : m.CoversBlock P b c) :
    m'.CoversBlock P b c :=
  ⟨h.argTypes, h.ops, fun i hi => hg.recorded _ _ (h.args i hi)⟩

theorem Covers.mono {l r : Op} (hg : Grows P lhs rhs m m') (h : m.Covers P l r) : m'.Covers P l r :=
  ⟨hg.ops h.mem, h.alike, fun i hi => hg.recorded _ _ (h.results i hi),
    fun b c hb => (h.blocks b c hb).mono hg⟩

/-- `mapValues` records the pairs of two lists. -/
theorem mapValues_spec (xs ys : List (Value Op Blk))
    (hS : ∀ p ∈ xs.zip ys, CorrespondingValues P lhs rhs p.1 p.2) :
    Grows P lhs rhs m (m.mapValues xs ys) ∧ ∀ (i : ℕ) x y, xs[i]? = some x → ys[i]? = some y →
      (m.mapValues xs ys).Recorded x y := by
  have lookup : ∀ x, (m.mapValues xs ys).values.lookup x = (m.values.lookup x).or
      (((xs.zip ys).find? fun p => p.1 = x).map Prod.snd) := fun x =>
    DenseMap.lookup_tryEmplaceAll _ _ _
  refine ⟨⟨fun _ h => h, fun _ h => Or.inl h, fun x y h => ⟨?_, List.mem_append_left _ h.2⟩,
    fun x y h => ?_⟩,
    fun i x y hx hy => ⟨?_, List.mem_append_right _ (List.mem_of_getElem? hy)⟩⟩
  · rw [lookup]
    obtain ⟨z, hz⟩ := Option.isSome_iff_exists.mp h.1
    simp [hz]
  · rw [lookup, Option.or_eq_some_iff] at h
    rcases h with h | ⟨-, h⟩
    · exact Or.inl h
    · obtain ⟨p, hp, rfl⟩ := Option.map_eq_some_iff.mp h
      have hfst : p.1 = x := by simpa using List.find?_some hp
      exact Or.inr (hfst ▸ hS p (List.mem_of_find?_eq_some hp))
  · rw [lookup, Option.isSome_or]
    have hmem : (x, y) ∈ xs.zip ys := by
      refine List.mem_of_getElem? (i := i) ?_
      rw [List.getElem?_zip_eq_some]
      exact ⟨hx, hy⟩
    have hfind : ((xs.zip ys).find? fun p => p.1 = x).isSome = true := by
      rw [List.find?_isSome]
      exact ⟨(x, y), hmem, by simp⟩
    simp [hfind]

end Matching

/-- What every step of `allOfZip` adds is there at its end. -/
theorem allOfZip_spec {M α β : Type} {f : M → α → β → Option M} {R : M → M → Prop}
    {D : α → β → M → Prop} (hrefl : ∀ m, R m m) (htrans : ∀ a b c, R a b → R b c → R a c)
    (hmono : ∀ a b m m', R m m' → D a b m → D a b m') {as : List α} {bs : List β} {m m' : M}
    (hf : ∀ (p : ℕ) a b m m', as[p]? = some a → bs[p]? = some b → f m a b = some m' →
      R m m' ∧ D a b m') (h : allOfZip f m as bs = some m') :
    as.length = bs.length ∧ R m m' ∧
      ∀ (p : ℕ) a b, as[p]? = some a → bs[p]? = some b → D a b m' := by
  induction as generalizing bs m with
  | nil =>
    cases bs with
    | nil =>
      obtain rfl : m = m' := by simpa [allOfZip] using h
      exact ⟨rfl, hrefl m, fun p a b ha => by simp at ha⟩
    | cons b bs => simp [allOfZip] at h
  | cons a as ih =>
    cases bs with
    | nil => simp [allOfZip] at h
    | cons b bs =>
      rw [allOfZip] at h
      split at h
      · next m₁ h₁ =>
        obtain ⟨hr, hd⟩ := hf 0 a b m m₁ rfl rfl h₁
        obtain ⟨hlen, hr', hd'⟩ := ih (fun p x y m m' hx hy => hf (p + 1) x y m m' hx hy) h
        refine ⟨congrArg (· + 1) hlen, htrans _ _ _ hr hr', fun p x y hx hy => ?_⟩
        cases p with
        | zero =>
          obtain rfl : a = x := Option.some.inj hx
          obtain rfl : b = y := Option.some.inj hy
          exact hmono _ _ _ _ hr' hd
        | succ p => exact hd' p x y hx hy
      · simp at h

namespace Matching

/-- All pairs below two operations were matched. -/
def CoversBelow (P : Program Op Blk) (m : Matching Op Blk) (l r : Op) : Prop :=
  ∀ l' r', Corresponds P l r l' r' → m.Covers P l' r'

/-- Two blocks were matched, with everything in them. -/
def CoversWithin (P : Program Op Blk) (m : Matching Op Blk) (b c : Blk) : Prop :=
  m.CoversBlock P b c ∧ ∀ (p : ℕ) l r, (P.ops b)[p]? = some l → (P.ops c)[p]? = some r →
    m.CoversBelow P l r

/-- Two regions were matched, with everything in them. -/
def CoversRegion (P : Program Op Blk) (m : Matching Op Blk) (bs cs : List Blk) : Prop :=
  bs.length = cs.length ∧ ∀ (k : ℕ) b c, bs[k]? = some b → cs[k]? = some c → m.CoversWithin P b c

section Spec

variable {lhs rhs : Op} {matchOp : Matching Op Blk → Op → Op → Option (Matching Op Blk)}
  {m m' : Matching Op Blk}

theorem CoversBelow.mono {l r : Op} (hg : Grows P lhs rhs m m')
    (h : m.CoversBelow P l r) : m'.CoversBelow P l r :=
  fun l' r' hlr => (h l' r' hlr).mono hg

theorem CoversWithin.mono {b c : Blk} (hg : Grows P lhs rhs m m')
    (h : m.CoversWithin P b c) : m'.CoversWithin P b c :=
  ⟨h.1.mono hg, fun p l r hl hr => (h.2 p l r hl hr).mono hg⟩

theorem CoversRegion.mono {bs cs : List Blk} (hg : Grows P lhs rhs m m')
    (h : m.CoversRegion P bs cs) : m'.CoversRegion P bs cs :=
  ⟨h.1, fun k b c hb hc => (h.2 k b c hb hc).mono hg⟩

omit [DecidableEq Op] [DecidableEq Blk] in
theorem getElem?_results {op : Op} {i : ℕ} (hi : i < P.numResults op) :
    (P.results op)[i]? = some (.result op i) := by
  simp [Program.results, List.getElem?_range hi]

omit [DecidableEq Op] [DecidableEq Blk] in
theorem getElem?_arguments {b : Blk} {i : ℕ} (hi : i < P.numArgs b) :
    (P.arguments b)[i]? = some (.arg b i) := by
  simp [Program.arguments, List.getElem?_range hi]

theorem matchBlock_spec
    (hop : ∀ m m' l r, Corresponds P lhs rhs l r → matchOp m l r = some m' →
      Grows P lhs rhs m m' ∧ m'.CoversBelow P l r)
    {b c : Blk} (hbc : CorrespondingBlocks P lhs rhs b c)
    (h : matchBlock P matchOp m b c = some m') :
    Grows P lhs rhs m m' ∧ m'.CoversWithin P b c := by
  rw [matchBlock] at h
  split at h
  · simp at h
  · next hargs =>
    rw [not_not] at hargs
    have hnum : P.numArgs b = P.numArgs c := congrArg List.length hargs
    obtain ⟨hg, hrec⟩ := mapValues_spec (P := P) (m := m)
      (P.arguments b) (P.arguments c) (by
        rintro ⟨x, y⟩ hp
        obtain ⟨i, hi⟩ := List.mem_iff_getElem?.mp hp
        rw [List.getElem?_zip_eq_some] at hi
        simp only [Program.arguments, List.getElem?_map, Option.map_eq_some_iff,
          List.getElem?_eq_some_iff, List.length_range, List.getElem_range] at hi
        obtain ⟨⟨_, ⟨_, rfl⟩, rfl⟩, _, ⟨_, rfl⟩, rfl⟩ := hi
        exact .arg hbc i)
    obtain ⟨l₀, r₀, hlr, hsame⟩ := hbc
    obtain ⟨hlen, hg', hbelow⟩ := allOfZip_spec (R := Grows P lhs rhs)
      (D := fun l r m => m.CoversBelow P l r) (fun _ => .refl) (fun _ _ _ => .trans)
      (fun _ _ _ _ hg h => h.mono hg)
      (fun p l r m m' hl hr h => hop m m' l r (.nested hlr hsame p hl hr) h) h
    refine ⟨hg.trans hg', ⟨hargs, hlen, fun i hi => hg'.recorded _ _ ?_⟩, hbelow⟩
    exact hrec i _ _ (getElem?_arguments hi) (getElem?_arguments (hnum ▸ hi))

theorem matchRegion_spec
    (hop : ∀ m m' l r, Corresponds P lhs rhs l r → matchOp m l r = some m' →
      Grows P lhs rhs m m' ∧ m'.CoversBelow P l r)
    {bs cs : List Blk} (hbc : ∀ (k : ℕ) b c, bs[k]? = some b → cs[k]? = some c →
      CorrespondingBlocks P lhs rhs b c)
    (h : matchRegion P matchOp m bs cs = some m') :
    Grows P lhs rhs m m' ∧ m'.CoversRegion P bs cs := by
  rw [matchRegion] at h
  split at h
  · simp at h
  · obtain ⟨hlen, hg, hwithin⟩ := allOfZip_spec (R := Grows P lhs rhs)
      (D := fun b c m => m.CoversWithin P b c) (fun _ => .refl) (fun _ _ _ => .trans)
      (fun _ _ _ _ hg h => h.mono hg)
      (fun k b c m m' hb hc h => matchBlock_spec hop (hbc k b c hb hc) h) h
    exact ⟨⟨hg.ops, hg.added, hg.recorded, hg.values⟩, hlen, hwithin⟩

/-- **A matching records exactly what corresponds.** -/
theorem matchOperation_spec {fuel : ℕ} {l r : Op} (hlr : Corresponds P lhs rhs l r)
    (h : matchOperation P fuel m l r = some m') :
    Grows P lhs rhs m m' ∧ m'.CoversBelow P l r := by
  induction fuel generalizing m m' l r with
  | zero => simp [matchOperation] at h
  | succ fuel ih =>
    rw [matchOperation] at h
    split at h
    · simp at h
    · next hhead =>
      push Not at hhead
      obtain ⟨hname, hregions, -, hoperands, htypes, -, hprops⟩ := hhead
      split at h
      · have hnum : P.numResults l = P.numResults r := congrArg List.length htypes
        obtain ⟨hg, hrec⟩ := mapValues_spec (P := P) (m := m)
          (P.results l) (P.results r) (by
            rintro ⟨x, y⟩ hp
            obtain ⟨i, hi⟩ := List.mem_iff_getElem?.mp hp
            rw [List.getElem?_zip_eq_some] at hi
            simp only [Program.results, List.getElem?_map, Option.map_eq_some_iff,
              List.getElem?_eq_some_iff, List.length_range, List.getElem_range] at hi
            obtain ⟨⟨_, ⟨_, rfl⟩, rfl⟩, _, ⟨_, rfl⟩, rfl⟩ := hi
            exact .result hlr i)
        -- The blocks at one place of two regions at one place correspond.
        have hblock : ∀ (j k : ℕ) bs cs b c, (P.regions l)[j]? = some bs →
            (P.regions r)[j]? = some cs → bs[k]? = some b → cs[k]? = some c →
            P.SameBlock l r b c := fun j k bs cs b c hj hj' hb hc =>
          ⟨j, k, by simp [Program.BlockAt, hj, hb], by simp [Program.BlockAt, hj', hc]⟩
        obtain ⟨-, hg', hreg⟩ := allOfZip_spec (R := Grows P lhs rhs)
          (D := fun bs cs m => m.CoversRegion P bs cs) (fun _ => .refl) (fun _ _ _ => .trans)
          (fun _ _ _ _ hg h => h.mono hg)
          (fun j bs cs m m' hj hj' h => matchRegion_spec (fun m m' l r hlr h => ih hlr h)
            (fun k b c hb hc => ⟨l, r, hlr, hblock j k bs cs b c hj hj' hb hc⟩) h) h
        have within : ∀ b c, P.SameBlock l r b c → m'.CoversWithin P b c := by
          rintro b c ⟨j, k, hb, hc⟩
          obtain ⟨bs, hj, hb⟩ := hb.mem
          obtain ⟨cs, hj', hc⟩ := hc.mem
          exact (hreg j bs cs hj hj').2 k b c hb hc
        have alike : Alike P l r :=
          ⟨OpKind.eq_of_name_eq hname hprops, htypes, hoperands, hregions,
            fun j bs cs hj hj' => (hreg j bs cs hj hj').1⟩
        refine ⟨⟨fun x hx => hg'.ops (List.mem_append_left _ (hg.ops hx)), fun p hp => ?_,
          fun x y hx => hg'.recorded x y (hg.recorded x y hx),
          fun x y hx => (hg'.values x y hx).elim (hg.values x y) Or.inr⟩, fun l' r' h' => ?_⟩
        · rcases hg'.added p hp with hp | hp
          · rcases List.mem_append.mp hp with hp | hp
            · exact hg.added p hp
            · obtain rfl := List.mem_singleton.mp hp
              exact Or.inr hlr
          · exact Or.inr hp
        rcases h'.cases_head with ⟨rfl, rfl⟩ | ⟨b, c, hbc, p, l₁, r₁, hl₁, hr₁, h₁⟩
        · refine ⟨hg'.ops (List.mem_append_right _ (by simp)), alike, fun i hi => ?_,
            fun b c hbc => (within b c hbc).1⟩
          exact hg'.recorded _ _ (hrec i _ _ (getElem?_results hi) (getElem?_results (hnum ▸ hi)))
        · exact (within b c hbc).2 p l₁ r₁ hl₁ hr₁ l' r' h₁
      · simp at h

end Spec

end Matching

end MlirInterpreter
