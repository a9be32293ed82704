import Mathlib.Data.Set.Basic
import MlirInterpreter.Engine.Discipline

/-!
# What a known answer says

The engine does not know what an operation does; its model does.  To say that an answer is right it
is enough to know which values the values of a program have together.  A *moment* is what they are
at one time, if they are anything, and what a program means is a set of moments: those of its
executions, the solutions of its equations, or whatever its dialects take it to mean.

`Holds P M ρ v p` says that `v` is `p` at every moment at which the arguments of the blocks around
`v` are what is known of them.  More bindings make it true of more payloads, and bindings of other
blocks do not matter: `Holds.mono`.  This is all it takes for the memo of the engine to be right.
`Remembers` says that it is, and binding, unbinding and memoizing keep it, whatever the moments are.
-/

set_option autoImplicit false

namespace MlirInterpreter

variable {Op Blk σ π : Type}

/-! ## Moments -/

/-- What is known of the arguments of blocks. -/
abbrev Bindings (Blk π : Type) := Blk → ℕ → Option π

/-- Nothing is known. -/
def Bindings.empty : Bindings Blk π := fun _ _ => none

/-- The arguments of a block become known. -/
def Bindings.bind [DecidableEq Blk] (ρ : Bindings Blk π) (b : Blk) (args : List (Option π)) :
    Bindings Blk π :=
  fun c i => if c = b then (args[i]?).join else ρ c i

/-- The arguments of a block are not known any more. -/
def Bindings.unbind [DecidableEq Blk] (ρ : Bindings Blk π) (b : Blk) : Bindings Blk π :=
  fun c i => if c = b then none else ρ c i

theorem Bindings.unbind_bind [DecidableEq Blk] {ρ : Bindings Blk π} {b : Blk}
    (h : ∀ i, ρ b i = none) (args : List (Option π)) : (ρ.bind b args).unbind b = ρ := by
  funext c i
  rw [Bindings.unbind, Bindings.bind]
  split
  · next hc => rw [hc, h]
  · rfl

/-- What the values of a program are at one time. -/
abbrev Moment (Op Blk π : Type) := Value Op Blk → Option π

/-- At the moment, the arguments of the block are what is known of them. -/
def Moment.Meets (m : Moment Op Blk π) (ρ : Bindings Blk π) (b : Blk) : Prop :=
  ∀ i p, ρ b i = some p → m (.arg b i) = some p

/-- There is a moment at which all arguments are what is known of them. -/
def Possible (M : Set (Moment Op Blk π)) (ρ : Bindings Blk π) : Prop := ∃ m ∈ M, ∀ b, m.Meets ρ b

theorem Possible.empty {M : Set (Moment Op Blk π)} (h : M.Nonempty) : Possible M .empty := by
  obtain ⟨m, hm⟩ := h
  exact ⟨m, hm, fun b i p hp => by simp [Bindings.empty] at hp⟩

/-- The definition of the value is in the block, or nested in an operation of it. -/
def Program.Around (P : Program Op Blk) (b : Blk) (v : Value Op Blk) : Prop :=
  ∃ r, P.valueRegion v = some r ∧ P.Inside (P.parentRegion b) r

/-- The value is the payload at every moment at which the arguments of the blocks around it are what
is known of them. -/
def Holds (P : Program Op Blk) (M : Set (Moment Op Blk π)) (ρ : Bindings Blk π) (v : Value Op Blk)
    (p : π) : Prop :=
  ∀ m ∈ M, (∀ b, P.Around b v → m.Meets ρ b) → m v = some p

section Holds

variable {P : Program Op Blk} {M : Set (Moment Op Blk π)} {ρ ρ' : Bindings Blk π}
  {v : Value Op Blk} {p : π}

/-- **What holds does so as more becomes known**, of the blocks around the value. -/
theorem Holds.mono (h : Holds P M ρ v p)
    (hle : ∀ b, P.Around b v → ∀ i q, ρ b i = some q → ρ' b i = some q) : Holds P M ρ' v p :=
  fun m hm hmeets => h m hm fun b hb i q hq => hmeets b hb i q (hle b hb i q hq)

/-- What holds if nothing is known holds. -/
theorem Holds.of_empty (h : Holds P M .empty v p) : Holds P M ρ v p :=
  h.mono fun b _ i q hq => by simp [Bindings.empty] at hq

theorem Holds.arg {b : Blk} {i : ℕ} (h : ρ b i = some p) : Holds P M ρ (.arg b i) p :=
  fun _ _ hmeets => hmeets b ⟨_, rfl, .refl⟩ i p h

theorem holds_empty_iff : Holds P M .empty v p ↔ ∀ m ∈ M, m v = some p :=
  ⟨fun h m hm => h m hm fun b _ i q hq => by simp [Bindings.empty] at hq, fun h m hm _ => h m hm⟩

end Holds

/-! ## Answers -/

/-- The payload of a known answer. -/
def Answer.content (a : Answer π) : Option π := a.value?.map EvalValue.payload

@[simp] theorem Answer.content_known (v : EvalValue π) :
    (Answer.known v).content = some v.payload := rfl

@[simp] theorem Answer.content_unknown : (Answer.unknown : Answer π).content = none := rfl

@[simp] theorem Answer.content_signal (st : Signal) :
    Answer.content (.signal st : Answer π) = none := rfl

/-- If it is known, the answer holds of the value. -/
def Answer.Right (P : Program Op Blk) (M : Set (Moment Op Blk π)) (ρ : Bindings Blk π)
    (v : Value Op Blk) (a : Answer π) : Prop :=
  ∀ p, a.content = some p → Holds P M ρ v p

section Right

variable {P : Program Op Blk} {M : Set (Moment Op Blk π)} {ρ : Bindings Blk π} {v : Value Op Blk}

theorem Answer.right_unknown : (Answer.unknown : Answer π).Right P M ρ v := fun p hp => by
  simp at hp

theorem Answer.right_signal (st : Signal) : Answer.Right P M ρ v (.signal st : Answer π) :=
  fun p hp => by simp at hp

theorem Answer.right_known {w : EvalValue π} (h : Holds P M ρ v w.payload) :
    (Answer.known w).Right P M ρ v := fun p hp => by
  obtain rfl : w.payload = p := by simpa using hp
  exact h

end Right

/-! ## What an engine knows -/

/-- What is known of the arguments of the bound blocks. -/
def Engine.known [DecidableEq Blk] (engine : Engine Op Blk π) : Bindings Blk π := fun b i =>
  (engine.bindings.lookup (b, i)).bind Answer.content

/-- What is known when only the first `k` blocks are bound. -/
def Engine.knownAt [DecidableEq Blk] (engine : Engine Op Blk π) (k : ℕ) : Bindings Blk π :=
  fun b i => if b ∈ engine.boundBlocks.take k then engine.known b i else none

variable [DecidableEq Blk]

/-- What is memoized holds, and does so for as long as it is memoized: an answer that is not noted
in a frame but the first `k` holds when only the first `k` blocks are bound. -/
def Remembers [DecidableEq Op] (P : Program Op Blk) (M : Set (Moment Op Blk π))
    (engine : Engine Op Blk π) : Prop :=
  ∀ k v a, engine.queryAnswers.lookup v = some a → (∀ f ∈ engine.frames.drop k, v ∉ f.memoized) →
    a.Right P M (engine.knownAt k) v

variable {P : Program Op Blk} {M : Set (Moment Op Blk π)}

theorem SameScopes.known {a b : Engine Op Blk π} (h : SameScopes a b) : b.known = a.known := by
  funext c i
  rw [Engine.known, Engine.known, h.bindings]

namespace ScopesInv

variable {engine : Engine Op Blk π}

theorem lookup_of_notMem (h : ScopesInv P engine) {b : Blk} (hb : b ∉ engine.boundBlocks) (i : ℕ) :
    engine.bindings.lookup (b, i) = none := by
  cases hl : engine.bindings.lookup (b, i) with
  | none => rfl
  | some a => exact absurd (h.bound b i a hl).1 hb

theorem known_of_notMem (h : ScopesInv P engine) {b : Blk} (hb : b ∉ engine.boundBlocks) (i : ℕ) :
    engine.known b i = none := by
  rw [Engine.known, h.lookup_of_notMem hb]
  rfl

/-- Without bound blocks nothing is known. -/
theorem known_eq_empty (h : ScopesInv P engine) (hf : engine.frames = []) :
    engine.known = .empty := by
  funext b i
  exact h.known_of_notMem (by simp [Engine.boundBlocks, hf]) i

theorem knownAt_length (h : ScopesInv P engine) {k : ℕ} (hk : engine.boundBlocks.length ≤ k) :
    engine.knownAt k = engine.known := by
  funext b i
  rw [Engine.knownAt, List.take_of_length_le hk]
  split
  · rfl
  · next hb => exact (h.known_of_notMem hb i).symm

/-- The own blocks of an operation are not bound when its code runs. -/
theorem known_own (h : ScopesInv P engine) {op : Op} (he : Evaluating P op engine) {b : Blk}
    (hb : (P.parentRegion b).op = op) (i : ℕ) : engine.known b i = none :=
  h.known_of_notMem (fun hmem => he.2 b hmem hb) i

end ScopesInv

section Writes

variable {s : State Op Blk σ π} {b : Blk} {args : List (Answer π)} {frame : BindingFrame Op Blk}

/-- Binding a block makes its arguments known. -/
theorem State.known_bind (hs : ScopesInv P s.engine) (hb : b ∉ s.engine.boundBlocks)
    (hargs : args.length = P.numArgs b) :
    (s.bind P b args).engine.known = s.engine.known.bind b (args.map Answer.content) := by
  funext c i
  rw [Engine.known, State.lookup_bind (hs.lookup_of_notMem hb) hargs, Bindings.bind]
  split
  · rw [List.getElem?_map]
    cases args[i]? <;> rfl
  · rfl

variable [DecidableEq Op]

/-- Unbinding it makes them unknown. -/
theorem State.known_unbind (hs : ScopesInv P s.engine) :
    (s.unbind P frame).engine.known = s.engine.known.unbind frame.block := by
  funext c i
  rw [Engine.known, State.lookup_unbind, Bindings.unbind, Engine.known]
  by_cases hc : c = frame.block
  · rw [if_pos hc]
    split
    · rfl
    · next hkey =>
      cases hl : s.engine.bindings.lookup (c, i) with
      | none => rfl
      | some a => exact absurd ⟨hc, hc ▸ (hs.bound c i a hl).2⟩ hkey
  · rw [if_neg hc, if_neg fun h => hc h.1]

end Writes

namespace Remembers

variable [DecidableEq Op]

/-- What is memoized holds now. -/
theorem now {engine : Engine Op Blk π} (h : Remembers P M engine) (hs : ScopesInv P engine)
    {v : Value Op Blk} {a : Answer π} (hv : engine.queryAnswers.lookup v = some a) :
    a.Right P M engine.known v := by
  have hlen : engine.boundBlocks.length ≤ engine.frames.length := by simp [Engine.boundBlocks]
  rw [← hs.knownAt_length hlen]
  exact h _ v a hv (by simp)

theorem of_eq {engine engine' : Engine Op Blk π} (h : Remembers P M engine)
    (hm : engine'.queryAnswers = engine.queryAnswers) (hf : engine'.frames = engine.frames)
    (hb : engine'.bindings = engine.bindings) : Remembers P M engine' := by
  have hknown : engine'.knownAt = engine.knownAt := by
    funext k b i
    simp only [Engine.knownAt, Engine.boundBlocks, Engine.known, hf, hb]
    rfl
  intro k v a hv hnot
  rw [hknown]
  exact h k v a (hm ▸ hv) (hf ▸ hnot)

section Writes

variable {s : State Op Blk σ π} {b : Blk} {args : List (Answer π)} {v : Value Op Blk}
  {frames : List (BindingFrame Op Blk)} {frame : BindingFrame Op Blk}

/-- **What is memoized holds when another block is bound.** -/
theorem bind (h : Remembers P M s.engine) (hs : ScopesInv P s.engine)
    (hb : b ∉ s.engine.boundBlocks) (hargs : args.length = P.numArgs b)
    (hs' : ScopesInv P (s.bind P b args).engine) : Remembers P M (s.bind P b args).engine := by
  have hblocks : (s.bind P b args).engine.boundBlocks = s.engine.boundBlocks ++ [b] := by
    simp [State.bind, Engine.boundBlocks]
  have hknown := State.known_bind hs hb hargs
  intro k v a hv hnot
  by_cases hk : k ≤ s.engine.boundBlocks.length
  · -- The first `k` blocks and what is known of them are the same as before.
    have heq : (s.bind P b args).engine.knownAt k = s.engine.knownAt k := by
      funext c i
      rw [Engine.knownAt, Engine.knownAt, hblocks, List.take_append_of_le_length hk]
      split
      · next hc =>
        rw [hknown, Bindings.bind, if_neg]
        rintro rfl
        exact hb (List.mem_of_mem_take hc)
      · rfl
    rw [heq]
    refine h k v a hv fun f hf => hnot f ?_
    have hk' : k ≤ s.engine.frames.length := by simpa [Engine.boundBlocks] using hk
    simp only [State.bind]
    rw [List.drop_append_of_le_length hk']
    exact List.mem_append_left _ hf
  · -- It holds now, and the new bindings only add to what is known.
    have hlen : (s.bind P b args).engine.boundBlocks.length ≤ k := by
      rw [hblocks, List.length_append, List.length_singleton]
      omega
    rw [hs'.knownAt_length hlen, hknown]
    refine fun p hp => (h.now hs hv p hp).mono fun c _ i q hq => ?_
    rw [Bindings.bind, if_neg]
    · exact hq
    · rintro rfl
      rw [hs.known_of_notMem hb] at hq
      simp at hq

/-- **What is memoized holds when the last block is unbound**, since the rest is forgotten. -/
theorem unbind (h : Remembers P M s.engine) (hs : ScopesInv P s.engine)
    (hf : s.engine.frames = frames ++ [frame]) : Remembers P M (s.unbind P frame).engine := by
  have hframes : (s.unbind P frame).engine.frames = frames := by simp [State.unbind, hf]
  have hblocks : s.engine.boundBlocks = frames.map BindingFrame.block ++ [frame.block] := by
    simp [Engine.boundBlocks, hf]
  have hblocks' : (s.unbind P frame).engine.boundBlocks = frames.map BindingFrame.block := by
    rw [Engine.boundBlocks, hframes]
  have hnodup := hs.nodup
  rw [hblocks, List.nodup_append] at hnodup
  intro k v a hv hnot
  obtain ⟨hmem, hv⟩ : v ∉ frame.memoized ∧ s.engine.queryAnswers.lookup v = some a := by
    simp only [State.unbind, DenseMap.lookup_eraseAll] at hv
    split at hv
    · simp at hv
    · next hmem => exact ⟨hmem, hv⟩
  -- No block is left to be bound beyond those that are.
  have heq : (s.unbind P frame).engine.knownAt k = s.engine.knownAt (min k frames.length) := by
    funext c i
    rw [Engine.knownAt, Engine.knownAt, hblocks, hblocks',
      List.take_append_of_le_length (by simp), List.take_eq_take_min, List.length_map]
    split
    · next hc =>
      rw [State.known_unbind hs, Bindings.unbind, if_neg]
      exact hnodup.2.2 c (List.mem_of_mem_take hc) _ (by simp)
    · rfl
  rw [heq]
  refine h _ v a hv fun f hfmem hin => ?_
  rw [hf, List.drop_append_of_le_length (by omega), List.mem_append, List.mem_singleton] at hfmem
  rcases hfmem with hfmem | rfl
  · refine hnot f ?_ hin
    rw [hframes]
    rcases Nat.le_total k frames.length with hk | hk
    · rwa [Nat.min_eq_left hk] at hfmem
    · simp [Nat.min_eq_right hk] at hfmem
  · exact hmem hin

/-- **An answer that holds now may be memoized**: it is forgotten when a block is unbound that is
around its value. -/
theorem memoize {a : Answer π} (h : Remembers P M s.engine) (hs : ScopesInv P s.engine)
    (ha : a.Right P M s.engine.known v) : Remembers P M (s.memoize P v a).engine := by
  have hblocks : (s.memoize P v a).engine.boundBlocks = s.engine.boundBlocks :=
    State.memoize.attach_blocks s.engine.frames
  have heq : ∀ k, (s.memoize P v a).engine.knownAt k = s.engine.knownAt k := by
    intro k
    funext c i
    rw [Engine.knownAt, Engine.knownAt, hblocks]
    rfl
  intro k u b hu hnot
  obtain ⟨hkeep, hout⟩ := State.memoize.attach_spec (P := P) (v := v) (u := u) s.engine.frames hnot
  rw [heq]
  simp only [State.memoize, DenseMap.lookup_insert'] at hu
  split at hu
  · next huv =>
    subst huv
    obtain rfl := Option.some.inj hu
    refine fun p hp => (ha p hp).mono fun c hc i q hq => ?_
    rw [Engine.knownAt, if_pos]
    · exact hq
    · -- A block bound later is not around the value.
      by_contra hnotin
      have hbound : c ∈ s.engine.boundBlocks := by
        by_contra hno
        rw [hs.known_of_notMem hno] at hq
        simp at hq
      rw [← List.take_append_drop k s.engine.boundBlocks, List.mem_append] at hbound
      have hdrop := hbound.resolve_left hnotin
      rw [Engine.boundBlocks, ← List.map_drop] at hdrop
      obtain ⟨f, hf, rfl⟩ := List.mem_map.mp hdrop
      obtain ⟨r, hr, hin⟩ := hc
      have hcontains := hout rfl f hf
      simp [State.memoize.contains, hr, Program.isAncestor_iff.mpr hin] at hcontains
  · exact h k u b hu hkeep

end Writes

end Remembers

end MlirInterpreter
