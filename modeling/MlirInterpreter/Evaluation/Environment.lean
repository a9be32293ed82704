import MlirInterpreter.Engine.Frames
import MlirInterpreter.Engine.Growth
import MlirInterpreter.Reference.Properties

/-!
# Environments of an engine

The bound blocks of an engine make up an environment for the reference evaluation, and so do the
first `k` of them, `Engine.envAt k`: the environment the engine is back in when all later bindings
have ended.

* `FramesInv` ties the frames to the bindings and to the loops being evaluated.
* `Coherent` says that the memo is right: an answer that survives until only the first `k` blocks
  are bound is right in the environment they make up.

What binding, unbinding and memoizing do to the two is the content of this module.  Binding is where
it is decided whether unknown answers can be trusted: a value that is known stays so when more
arguments are, but a value memoized as unknown may become known.  `NoStaleUnknown` says that this
does not happen.
-/

set_option autoImplicit false

namespace MlirInterpreter

variable {Op Blk σ : Type} [DecidableEq Blk] {P : Program Op Blk}

/-! ## Answers and values -/

/-- A completed answer is right about a value: if it is known, it is that value, and it is unknown
only if the value is, provided that unknown answers can be trusted. -/
structure Agrees (exact : Prop) (a : Answer APInt) (r : Option APInt) : Prop where
  known : ∀ v, a = .known v → r = some v.payload
  unknown : exact → a = .unknown → r = none

namespace Agrees

variable {exact : Prop} {a : Answer APInt} {r r' : Option APInt}

theorem of_known {v : EvalValue APInt} (h : r = some v.payload) : Agrees exact (.known v) r :=
  ⟨fun w hw => by simpa using (Option.some.inj (EvalResult.completed.inj hw)) ▸ h, by simp⟩

theorem of_unknown (h : exact → r = none) : Agrees exact .unknown r := ⟨by simp, fun he _ => h he⟩

theorem of_signal (st : Signal) : Agrees exact (.signal st) r := ⟨by simp, by simp⟩

/-- An answer stays right about a value that is known if the first one was. -/
theorem mono (h : Agrees exact a r) (hle : Known.le r r') (he : exact → r = none → r' = none) :
    Agrees exact a r' :=
  ⟨fun v hv => hle _ (h.known v hv), fun hex hu => he hex (h.unknown hex hu)⟩

theorem payload_le (h : Agrees exact a r) : Known.le a.payload? r := by
  intro x hx
  rcases a with (_ | v) | st
  · simp [Answer.payload?] at hx
  · rw [h.known v rfl]
    exact hx
  · simp [Answer.payload?] at hx

/-- A completed answer that can be trusted is exactly the value. -/
theorem payload_eq (h : Agrees exact a r) (he : exact) (hc : a.isCompleted = true) :
    a.payload? = r := by
  rcases a with (_ | v) | st
  · exact (h.unknown he rfl).symm
  · exact (h.known v rfl).symm
  · simp [Answer.isCompleted] at hc

end Agrees

/-! ## Environments -/

/-- The environment the bound blocks make up. -/
def Engine.env (engine : Engine Op Blk APInt) : Env Blk := fun b i =>
  (engine.bindings.lookup (b, i)).bind Answer.payload?

/-- The bound blocks, oldest first. -/
def Engine.blocks (engine : Engine Op Blk APInt) : List Blk := engine.frames.map BindingFrame.block

/-- The environment the first `k` bound blocks make up. -/
def Engine.envAt (engine : Engine Op Blk APInt) (k : ℕ) : Env Blk := fun b i =>
  if b ∈ engine.blocks.take k then engine.env b i else none

/-- The frames and the bindings of an engine belong together, and to the loops being evaluated. -/
structure FramesInv (P : Program Op Blk) (engine : Engine Op Blk APInt) : Prop where
  nodup : engine.blocks.Nodup
  loops : ∀ b ∈ engine.blocks, ∃ op ∈ engine.active, P.loopBody op = some b
  /-- Only arguments of bound blocks are bound, and to completed answers. -/
  bound : ∀ b i a, engine.bindings.lookup (b, i) = some a → b ∈ engine.blocks ∧ i < P.numArgs b ∧
    a.isCompleted = true
  /-- Every argument of a bound block is bound. -/
  total : ∀ b ∈ engine.blocks, ∀ i < P.numArgs b, (engine.bindings.lookup (b, i)).isSome = true
  typed : P.Acyclic → engine.env.WellTyped P
  /-- Nothing is cached while a block is bound. -/
  frozen : engine.frames ≠ [] → 0 < engine.freezes

namespace FramesInv

variable {engine : Engine Op Blk APInt}

theorem env_of_notMem (h : FramesInv P engine) {b : Blk} (hb : b ∉ engine.blocks) (i : ℕ) :
    engine.env b i = none := by
  rw [Engine.env]
  cases hl : engine.bindings.lookup (b, i) with
  | none => rfl
  | some a => exact absurd (h.bound b i a hl).1 hb

/-- All bound blocks make up the environment. -/
theorem envAt_length (h : FramesInv P engine) {k : ℕ} (hk : engine.blocks.length ≤ k) :
    engine.envAt k = engine.env := by
  funext b i
  rw [Engine.envAt, List.take_of_length_le hk]
  split
  · rfl
  · next hb => exact (h.env_of_notMem hb i).symm

/-- Without bound blocks no argument is known. -/
theorem env_eq_empty (h : FramesInv P engine) (hf : engine.frames = []) :
    engine.env = Env.empty := by
  funext b i
  exact h.env_of_notMem (by simp [Engine.blocks, hf]) i

end FramesInv

/-! ## Coherence -/

/-- The value was memoized after the first `k` blocks were bound, and will be forgotten when there
are only `k` blocks bound again. -/
def Engine.Forgets (engine : Engine Op Blk APInt) (k : ℕ) (v : Value Op Blk) : Prop :=
  ∃ f ∈ engine.frames.drop k, v ∈ f.memoized

section

variable [DecidableEq Op] [Fintype Op]

/-- What is memoized is right, now and for as long as it is memoized. -/
structure Coherent (P : Program Op Blk) (exact : Prop) (engine : Engine Op Blk APInt) : Prop where
  valid : ∀ v a, engine.queryAnswers.lookup v = some a → P.Valid v
  agrees : P.Acyclic → ∀ k v a, engine.queryAnswers.lookup v = some a → ¬ engine.Forgets k v →
    Agrees exact a (reference P (engine.envAt k) v)

/-- When a block was bound, no value was memoized as unknown that depends on its arguments. -/
def NoStaleUnknown (P : Program Op Blk) (s : State Op Blk σ APInt) : Prop :=
  ∀ b args, s.log.head? = some (.bound b args) → ∀ v, s.memo v = some .unknown → ¬ P.Depends b v

/-- What is memoized is right now. -/
theorem Coherent.now {exact : Prop} {engine : Engine Op Blk APInt} (h : Coherent P exact engine)
    (hf : FramesInv P engine) (hA : P.Acyclic) {v : Value Op Blk} {a : Answer APInt}
    (hv : engine.queryAnswers.lookup v = some a) : Agrees exact a (reference P engine.env v) := by
  have hlen : engine.blocks.length ≤ engine.frames.length := by simp [Engine.blocks]
  rw [← hf.envAt_length hlen]
  refine h.agrees hA _ v a hv ?_
  rintro ⟨f, hmem, -⟩
  simp at hmem

end

/-! ### Binding -/

section Bind

variable {s : State Op Blk σ APInt} {b : Blk} {args : List (Answer APInt)}

/-- What is bound after a block was bound. -/
theorem State.bind_lookup (hf : FramesInv P s.engine) (hb : b ∉ s.engine.blocks)
    (hargs : args.length = P.numArgs b) (c : Blk) (i : ℕ) :
    (s.bind P b args).engine.bindings.lookup (c, i) =
      if c = b then args[i]? else s.engine.bindings.lookup (c, i) := by
  refine State.lookup_bind (fun j => ?_) hargs c i
  cases hl : s.engine.bindings.lookup (b, j) with
  | none => rfl
  | some a => exact absurd (hf.bound b j a hl).1 hb

/-- Binding a block binds it in the environment. -/
theorem State.bind_env (hf : FramesInv P s.engine) (hb : b ∉ s.engine.blocks)
    (hargs : args.length = P.numArgs b) :
    (s.bind P b args).engine.env = s.engine.env.bind b (args.map Answer.payload?) := by
  funext c i
  rw [Engine.env, State.bind_lookup hf hb hargs, Env.bind]
  split
  · rw [List.getElem?_map]
    cases args[i]? <;> rfl
  · rfl

theorem State.bind_blocks : (s.bind P b args).engine.blocks = s.engine.blocks ++ [b] := by
  simp [State.bind, Engine.blocks]

/-- The bindings made before are not affected. -/
theorem State.bind_envAt (hf : FramesInv P s.engine) (hb : b ∉ s.engine.blocks)
    (hargs : args.length = P.numArgs b) {k : ℕ} (hk : k ≤ s.engine.blocks.length) :
    (s.bind P b args).engine.envAt k = s.engine.envAt k := by
  funext c i
  rw [Engine.envAt, Engine.envAt, State.bind_blocks, List.take_append_of_le_length hk]
  split
  · next hc =>
    rw [Engine.env, State.bind_lookup hf hb hargs, if_neg]
    · rfl
    · rintro rfl
      exact hb (List.mem_of_mem_take hc)
  · rfl

theorem FramesInv.bind (hf : FramesInv P s.engine) (hb : b ∉ s.engine.blocks)
    (hargs : args.length = P.numArgs b) (hcomp : ∀ a ∈ args, a.isCompleted = true)
    (htyped : P.Acyclic → ListHasType (P.argTypes b) (args.map Answer.payload?))
    {op : Op} (hop : op ∈ s.engine.active) (hbody : P.loopBody op = some b)
    (hfreeze : 0 < s.engine.freezes) : FramesInv P (s.bind P b args).engine where
  nodup := by
    rw [State.bind_blocks, List.nodup_append]
    exact ⟨hf.nodup, by simp, fun c hc d hd => by
      rw [List.mem_singleton.mp hd]
      rintro rfl
      exact hb hc⟩
  loops c hc := by
    rw [State.bind_blocks, List.mem_append, List.mem_singleton] at hc
    rcases hc with hc | rfl
    · exact hf.loops c hc
    · exact ⟨op, hop, hbody⟩
  bound c i a ha := by
    rw [State.bind_lookup hf hb hargs] at ha
    rw [State.bind_blocks, List.mem_append, List.mem_singleton]
    split at ha
    · next hc =>
      subst hc
      exact ⟨Or.inr rfl, hargs ▸ (List.getElem?_eq_some_iff.mp ha).1,
        hcomp a (List.mem_of_getElem? ha)⟩
    · obtain ⟨h₁, h₂⟩ := hf.bound c i a ha
      exact ⟨Or.inl h₁, h₂⟩
  total c hc i hi := by
    rw [State.bind_lookup hf hb hargs]
    split
    · next hcb =>
      subst hcb
      simp [hargs, hi]
    · next hcb =>
      rw [State.bind_blocks, List.mem_append, List.mem_singleton] at hc
      exact hf.total c (hc.resolve_right hcb) i hi
  typed hA := by
    rw [State.bind_env hf hb hargs]
    exact (hf.typed hA).bind (htyped hA)
  frozen _ := hfreeze

variable [DecidableEq Op] [Fintype Op]

/-- **Binding a block keeps the memo right**, unless it makes an unknown answer stale. -/
theorem Coherent.bind {exact : Prop} (hP : P.Verified) (h : Coherent P exact s.engine)
    (hf : FramesInv P s.engine) (hb : b ∉ s.engine.blocks) (hargs : args.length = P.numArgs b)
    (hf' : FramesInv P (s.bind P b args).engine)
    (hstale : exact → ∀ v, s.memo v = some .unknown → ¬ P.Depends b v) :
    Coherent P exact (s.bind P b args).engine where
  valid := h.valid
  agrees hA k v a hv hforget := by
    by_cases hk : k ≤ s.engine.blocks.length
    · rw [State.bind_envAt hf hb hargs hk]
      refine h.agrees hA k v a hv fun ⟨f, hmem, hin⟩ => hforget ⟨f, ?_, hin⟩
      have hk' : k ≤ s.engine.frames.length := by simpa [Engine.blocks] using hk
      simp only [State.bind]
      rw [List.drop_append_of_le_length hk']
      exact List.mem_append_left _ hmem
    · -- The block is bound: known values stay known, and unknown ones do not depend on it.
      have hlen : (s.bind P b args).engine.blocks.length ≤ k := by
        rw [State.bind_blocks]
        simp
        omega
      rw [hf'.envAt_length hlen]
      have hle : s.engine.env.le (s.bind P b args).engine.env := by
        intro c i x hx
        rw [State.bind_env hf hb hargs, Env.bind, if_neg]
        · exact hx
        · rintro rfl
          rw [hf.env_of_notMem hb] at hx
          simp at hx
      have hnow := h.now hf hA hv
      refine ⟨fun w hw => ?_, fun hex hu => ?_⟩
      · exact reference_mono hP hle (hf.typed hA) (hf'.typed hA) (h.valid v a hv)
          _ (hnow.known w hw)
      · rw [← hnow.unknown hex hu]
        refine reference_congr fun c hc i => ?_
        rw [State.bind_env hf hb hargs, Env.bind, if_neg]
        rintro rfl
        exact hstale hex v (hu ▸ hv) hc

end Bind

/-! ### Unbinding -/

variable [DecidableEq Op]

section Unbind

variable {s : State Op Blk σ APInt} {frames : List (BindingFrame Op Blk)}
  {frame : BindingFrame Op Blk}

/-- What is bound after the last block was unbound. -/
theorem State.unbind_lookup (hf : FramesInv P s.engine) (c : Blk) (i : ℕ) :
    (s.unbind P frame).engine.bindings.lookup (c, i) =
      if c = frame.block then none else s.engine.bindings.lookup (c, i) := by
  rw [State.lookup_unbind]
  by_cases hc : c = frame.block
  · rw [if_pos hc]
    split
    · rfl
    · next hkey =>
      cases hl : s.engine.bindings.lookup (c, i) with
      | none => rfl
      | some a => exact absurd ⟨hc, hc ▸ (hf.bound c i a hl).2.1⟩ hkey
  · rw [if_neg hc, if_neg fun h => hc h.1]

theorem State.unbind_frames (hs : s.engine.frames = frames ++ [frame]) :
    (s.unbind P frame).engine.frames = frames := by
  simp [State.unbind, hs]

theorem State.unbind_blocks (hs : s.engine.frames = frames ++ [frame]) :
    (s.unbind P frame).engine.blocks ++ [frame.block] = s.engine.blocks := by
  simp [Engine.blocks, State.unbind_frames hs, hs]

theorem FramesInv.unbind (hf : FramesInv P s.engine) (hs : s.engine.frames = frames ++ [frame]) :
    FramesInv P (s.unbind P frame).engine := by
  have hblocks := State.unbind_blocks (P := P) hs
  have hnodup := hf.nodup
  rw [← hblocks, List.nodup_append] at hnodup
  have hne : ∀ c ∈ (s.unbind P frame).engine.blocks, c ≠ frame.block := fun c hc =>
    hnodup.2.2 c hc _ (by simp)
  have hmem : ∀ c ∈ (s.unbind P frame).engine.blocks, c ∈ s.engine.blocks := fun c hc =>
    hblocks ▸ List.mem_append_left _ hc
  refine ⟨hnodup.1, fun c hc => hf.loops c (hmem c hc), fun c i a ha => ?_, fun c hc i hi => ?_,
    fun hA c i => ?_, fun hne => hf.frozen (by simp [hs])⟩
  · rw [State.unbind_lookup hf] at ha
    split at ha
    · simp at ha
    · next hcb =>
      obtain ⟨h₁, h₂⟩ := hf.bound c i a ha
      rw [← hblocks, List.mem_append, List.mem_singleton] at h₁
      exact ⟨h₁.resolve_right hcb, h₂⟩
  · rw [State.unbind_lookup hf, if_neg (hne c hc)]
    exact hf.total c (hmem c hc) i hi
  · rw [Engine.env, State.unbind_lookup hf]
    split
    · exact .none _
    · exact hf.typed hA c i

variable [Fintype Op]

/-- **Unbinding a block keeps the memo right**: what depends on the block is forgotten. -/
theorem Coherent.unbind {exact : Prop} (h : Coherent P exact s.engine) (hf : FramesInv P s.engine)
    (hs : s.engine.frames = frames ++ [frame]) :
    Coherent P exact (s.unbind P frame).engine := by
  have hblocks := State.unbind_blocks (P := P) hs
  have hf' := hf.unbind hs
  have hnodup := hf.nodup
  rw [← hblocks, List.nodup_append] at hnodup
  have hlookup : ∀ v a, (s.unbind P frame).engine.queryAnswers.lookup v = some a →
      v ∉ frame.memoized ∧ s.engine.queryAnswers.lookup v = some a := by
    intro v a hv
    simp only [State.unbind, DenseMap.lookup_eraseAll] at hv
    split at hv
    · simp at hv
    · next hnot => exact ⟨hnot, hv⟩
  refine ⟨fun v a hv => h.valid v a (hlookup v a hv).2, fun hA k v a hv hforget => ?_⟩
  obtain ⟨hnot, hv⟩ := hlookup v a hv
  -- No binding is left beyond the blocks that are left.
  have henv : (s.unbind P frame).engine.envAt k =
      s.engine.envAt (min k (s.unbind P frame).engine.blocks.length) := by
    funext c i
    rw [Engine.envAt, Engine.envAt, ← hblocks, List.take_append_of_le_length (min_le_right _ _),
      List.take_eq_take_min]
    split
    · next hc =>
      rw [Engine.env, State.unbind_lookup hf, if_neg]
      · rfl
      · exact hnodup.2.2 c (List.mem_of_mem_take hc) _ (by simp)
    · rfl
  rw [henv]
  refine h.agrees hA _ v a hv fun hmemo => ?_
  obtain ⟨f, hmem, hin⟩ := hmemo
  rw [hs, List.drop_append_of_le_length (by
    simp [Engine.blocks, State.unbind_frames hs])] at hmem
  rcases List.mem_append.mp hmem with hmem | hmem
  · refine hforget ⟨f, ?_, hin⟩
    rw [State.unbind_frames hs]
    rcases Nat.le_total k frames.length with hk | hk
    · simpa [Engine.blocks, State.unbind_frames hs, Nat.min_eq_left hk] using hmem
    · simp [Engine.blocks, State.unbind_frames hs, Nat.min_eq_right hk] at hmem
  · rw [List.mem_singleton.mp hmem] at hin
    exact hnot hin

end Unbind

/-! ### Memoizing -/

section Memoize

variable {s : State Op Blk σ APInt} {v : Value Op Blk}

omit [DecidableEq Blk] in
/-- A value does not depend on a block that does not contain it. -/
theorem State.memoize.not_depends (hP : P.Verified) {f : BindingFrame Op Blk}
    (h : contains P v f = false) : ¬ P.Depends f.block v := by
  intro hdep
  obtain ⟨r, hr, hin⟩ := hdep.inside hP
  have := Program.isAncestor_iff.mpr hin
  simp [contains, hr, this] at h

theorem State.memoize_blocks (a : Answer APInt) :
    (s.memoize P v a).engine.blocks = s.engine.blocks :=
  State.memoize.attach_blocks s.engine.frames

theorem FramesInv.memoize (h : FramesInv P s.engine) (a : Answer APInt) :
    FramesInv P (s.memoize P v a).engine where
  nodup := by rw [State.memoize_blocks]; exact h.nodup
  loops := by rw [State.memoize_blocks]; exact h.loops
  bound := by rw [State.memoize_blocks]; exact h.bound
  total := by rw [State.memoize_blocks]; exact h.total
  typed := h.typed
  frozen hne := h.frozen fun hnil => hne (by
    simp [State.memoize, hnil, State.memoize.attach])

theorem State.memoize_envAt (a : Answer APInt) (k : ℕ) :
    (s.memoize P v a).engine.envAt k = s.engine.envAt k := by
  funext b i
  rw [Engine.envAt, Engine.envAt, State.memoize_blocks]
  rfl

variable [Fintype Op]

/-- **Memoizing an answer that is right now keeps the memo right**: it will be forgotten as soon as
a block is unbound that it depends on. -/
theorem Coherent.memoize {exact : Prop} (hP : P.Verified) (h : Coherent P exact s.engine)
    (hf : FramesInv P s.engine) {a : Answer APInt} (hv : P.Valid v)
    (ha : P.Acyclic → Agrees exact a (reference P s.engine.env v)) :
    Coherent P exact (s.memoize P v a).engine where
  valid u b hu := by
    simp only [State.memoize, DenseMap.lookup_insert'] at hu
    split at hu
    · next huv => exact huv ▸ hv
    · exact h.valid u b hu
  agrees hA k u b hu hforget := by
    obtain ⟨hkeep, hout⟩ := State.memoize.attach_spec (P := P) (v := v) (u := u)
      s.engine.frames (k := k) fun f hmem hin => hforget ⟨f, hmem, hin⟩
    rw [State.memoize_envAt]
    simp only [State.memoize, DenseMap.lookup_insert'] at hu
    split at hu
    · next huv =>
      subst huv
      obtain rfl := Option.some.inj hu
      have heq : reference P (s.engine.envAt k) u = reference P s.engine.env u := by
        refine reference_congr fun b hb i => ?_
        rw [Engine.envAt]
        split
        · rfl
        · next hnot =>
          refine (hf.env_of_notMem (fun hmem => ?_) i).symm
          -- The block was bound later, and does not contain the value.
          rw [← List.take_append_drop k s.engine.blocks, List.mem_append] at hmem
          have hdrop := hmem.resolve_left hnot
          rw [Engine.blocks, ← List.map_drop] at hdrop
          obtain ⟨f, hf', rfl⟩ := List.mem_map.mp hdrop
          exact State.memoize.not_depends hP (hout rfl f hf') hb
      rw [heq]
      exact ha hA
    · exact h.agrees hA k u b hu fun ⟨f, hmem, hin⟩ => hkeep f hmem hin

end Memoize

end MlirInterpreter
