import MlirInterpreter.Engine.CacheInvariant
import MlirInterpreter.Engine.Frames
import MlirInterpreter.Foundations.Dialogue

/-!
# Models that use their scope as the source's types make them

A `BlockBinding` and a `CacheFreeze` are C++ objects that can neither be copied nor be forgotten: a
method that binds a block or freezes the cache has undone it, in reverse order, when it returns.
What the types leave to the model is stated by `EvalScope` and `EvaluableOpInterface` in words: one
answer for every argument of a block, one for every result of an operation.  `scopeProtocol` is the
protocol of such a method, and `OpModel.Tidy` a model whose methods keep it.

With tidy models no assertion of the engine can fail, no run stops early, and every query leaves the
engine as it found it (`tidy_query`), whatever the models ask for and in whatever order.
-/

set_option autoImplicit false

namespace MlirInterpreter

open Recorded

variable {Op Blk σ π : Type} [DecidableEq Blk]

/-! ## Tidy models -/

/-- What a method has open: the blocks it bound, innermost first, and its freezes. -/
structure OpenScopes (Blk : Type) where
  blocks : List Blk
  freezes : ℕ

/-- Nothing is open. -/
def OpenScopes.none : OpenScopes Blk := ⟨[], 0⟩

section Models

variable (P : Program Op Blk) (op : Op)

/-- How a method of `op` may use its scope.  It binds blocks of its own regions. -/
def scopeProtocol : Protocol (ScopeOp Op Blk σ π) (OpenScopes Blk) where
  allowed o
    | .query value => P.Valid value
    | .bind block args => (P.parentRegion block).op = op ∧ block ∉ o.blocks ∧
        args.length = P.numArgs block
    | .unbind block => o.blocks.head? = some block
    | .thawCache => 0 < o.freezes
    | _ => True
  next o
    | .bind block _ => { o with blocks := block :: o.blocks }
    | .unbind _ => { o with blocks := o.blocks.tail }
    | .freezeCache => { o with freezes := o.freezes + 1 }
    | .thawCache => { o with freezes := o.freezes - 1 }
    | _ => o

/-- The method keeps the protocol, has everything closed when it returns, and returns what `ok`
accepts. -/
def TidyMethod {α : Type} (ok : α → Prop) (p : ScopeM Op Blk σ π α) : Prop :=
  p.Keeps (scopeProtocol P op) (fun a o => o = .none ∧ ok a) .none

/-- A model whose methods are tidy. -/
structure OpModel.Tidy (model : OpModel Op Blk σ π) : Prop where
  isCacheable : TidyMethod P op (fun _ => True) model.isCacheable
  getHash : TidyMethod P op (fun _ => True) model.getHash
  isEquivalentTo : ∀ other, TidyMethod P op (fun _ => True) (model.isEquivalentTo other)
  evaluate : TidyMethod P op (fun l => l.length = P.numResults op) model.evaluate

end Models

/-- All models of an engine are tidy. -/
def Setup.Tidy (E : Setup Op Blk σ π) : Prop :=
  ∀ op model, E.models.op op = some model → model.Tidy E.program op

/-! ## The scopes of an engine -/

/-- The bound blocks, oldest first. -/
def Engine.boundBlocks (engine : Engine Op Blk π) : List Blk := engine.frames.map BindingFrame.block

/-- What holds of the scopes of an engine in every state. -/
structure ScopesInv (P : Program Op Blk) (engine : Engine Op Blk π) : Prop where
  nodup : engine.boundBlocks.Nodup
  /-- A bound block belongs to an operation that is being evaluated. -/
  owned : ∀ b ∈ engine.boundBlocks, (P.parentRegion b).op ∈ engine.active
  /-- What is bound is an argument of a bound block. -/
  bound : ∀ b i a, engine.bindings.lookup (b, i) = some a → b ∈ engine.boundBlocks ∧ i < P.numArgs b

/-- What a nested query leaves as it was. -/
structure SameScopes (engine engine' : Engine Op Blk π) : Prop where
  active : engine'.active = engine.active
  blocks : engine'.boundBlocks = engine.boundBlocks
  freezes : engine'.freezes = engine.freezes
  bindings : ∀ key, engine'.bindings.lookup key = engine.bindings.lookup key

namespace SameScopes

variable {a b c : Engine Op Blk π}

theorem refl (a : Engine Op Blk π) : SameScopes a a := ⟨rfl, rfl, rfl, fun _ => rfl⟩

theorem trans (h : SameScopes a b) (h' : SameScopes b c) : SameScopes a c :=
  ⟨h'.active.trans h.active, h'.blocks.trans h.blocks, h'.freezes.trans h.freezes,
    fun key => (h'.bindings key).trans (h.bindings key)⟩

theorem inv {P : Program Op Blk} (h : SameScopes a b) (ha : ScopesInv P a) : ScopesInv P b where
  nodup := h.blocks ▸ ha.nodup
  owned := by
    rw [h.blocks, h.active]
    exact ha.owned
  bound c i x hx := by
    rw [h.blocks]
    exact ha.bound c i x ((h.bindings (c, i)).symm.trans hx)

end SameScopes

/-- The operation is being evaluated, and none of its blocks is bound. -/
def Evaluating (P : Program Op Blk) (op : Op) (engine : Engine Op Blk π) : Prop :=
  op ∈ engine.active ∧ ∀ b ∈ engine.boundBlocks, (P.parentRegion b).op ≠ op

theorem Evaluating.same {P : Program Op Blk} {op : Op} {a b : Engine Op Blk π}
    (h : Evaluating P op a) (hs : SameScopes a b) : Evaluating P op b := by
  rw [Evaluating, hs.active, hs.blocks]
  exact h

/-- The engine in a method of `op` that found it as `before` and has `o` open. -/
structure InMethod (P : Program Op Blk) (op : Op) (before : Engine Op Blk π) (o : OpenScopes Blk)
    (engine : Engine Op Blk π) : Prop where
  inv : ScopesInv P engine
  active : engine.active = before.active
  blocks : engine.boundBlocks = before.boundBlocks ++ o.blocks.reverse
  freezes : engine.freezes = before.freezes + o.freezes
  own : ∀ b ∈ o.blocks, (P.parentRegion b).op = op
  bindings : ∀ b i, b ∉ o.blocks → engine.bindings.lookup (b, i) = before.bindings.lookup (b, i)

namespace InMethod

variable {P : Program Op Blk} {op : Op} {before engine engine' : Engine Op Blk π}
  {o : OpenScopes Blk}

theorem start (h : ScopesInv P engine) : InMethod P op engine .none engine :=
  ⟨h, rfl, by simp [OpenScopes.none], rfl, by simp [OpenScopes.none], fun _ _ _ => rfl⟩

/-- With everything closed the engine is as it was. -/
theorem sameScopes (h : InMethod P op before .none engine) : SameScopes before engine :=
  ⟨h.active, by simpa [OpenScopes.none] using h.blocks, h.freezes, fun key =>
    h.bindings key.1 key.2 (by simp [OpenScopes.none])⟩

theorem same (h : InMethod P op before o engine) (hs : SameScopes engine engine') :
    InMethod P op before o engine' :=
  ⟨hs.inv h.inv, hs.active.trans h.active, hs.blocks.trans h.blocks, hs.freezes.trans h.freezes,
    h.own, fun b i hb => (hs.bindings (b, i)).trans (h.bindings b i hb)⟩

section Writes

variable {s : State Op Blk σ π} {b : Blk}

/-- A block the protocol allows to be bound is not bound. -/
theorem notMem_boundBlocks (h : InMethod P op before o engine) (he : Evaluating P op before)
    (hb : (P.parentRegion b).op = op) (hnew : b ∉ o.blocks) : b ∉ engine.boundBlocks := by
  rw [h.blocks, List.mem_append, List.mem_reverse]
  rintro (hmem | hmem)
  · exact he.2 b hmem hb
  · exact hnew hmem

theorem bind (h : InMethod P op before o s.engine) (he : Evaluating P op before)
    (hb : (P.parentRegion b).op = op) (hnew : b ∉ o.blocks) (args : List (Answer π)) :
    InMethod P op before { o with blocks := b :: o.blocks } (s.bind P b args).engine := by
  have hblocks : (s.bind P b args).engine.boundBlocks = s.engine.boundBlocks ++ [b] := by
    simp [State.bind, Engine.boundBlocks]
  have hnot := h.notMem_boundBlocks he hb hnew
  -- A key that is found in the pairs to bind is one of an argument of the block.
  have hlookup : ∀ c i, (s.bind P b args).engine.bindings.lookup (c, i) =
      s.engine.bindings.lookup (c, i) ∨ c = b ∧ i < P.numArgs b := by
    intro c i
    simp only [State.bind, DenseMap.lookup_tryEmplaceAll]
    cases hf : ((P.argKeys b).zip args).find? (fun p => p.1 = (c, i)) with
    | none => left; simp
    | some p =>
      right
      obtain ⟨⟨c', j⟩, a⟩ := p
      have hmem := (List.of_mem_zip (List.mem_of_find?_eq_some hf)).1
      have hkey := List.find?_some hf
      obtain ⟨rfl, rfl⟩ : c' = c ∧ j = i := by simpa using hkey
      simpa [Program.argKeys, eq_comm, and_comm] using hmem
  refine ⟨⟨?_, ?_, ?_⟩, h.active, ?_, h.freezes, ?_, ?_⟩
  · rw [hblocks, List.nodup_append]
    refine ⟨h.inv.nodup, by simp, fun c hc d hd => ?_⟩
    rw [List.mem_singleton.mp hd]
    rintro rfl
    exact hnot hc
  · intro c hc
    rw [hblocks, List.mem_append, List.mem_singleton] at hc
    rcases hc with hc | rfl
    · exact h.inv.owned c hc
    · change (P.parentRegion c).op ∈ s.engine.active
      rw [hb, h.active]
      exact he.1
  · intro c i a ha
    rw [hblocks, List.mem_append, List.mem_singleton]
    rcases hlookup c i with hl | ⟨rfl, hi⟩
    · obtain ⟨h₁, h₂⟩ := h.inv.bound c i a (hl ▸ ha)
      exact ⟨Or.inl h₁, h₂⟩
    · exact ⟨Or.inr rfl, hi⟩
  · rw [hblocks, h.blocks]
    simp
  · intro c hc
    rcases List.mem_cons.mp hc with rfl | hc
    · exact hb
    · exact h.own c hc
  · intro c i hc
    rw [List.mem_cons, not_or] at hc
    rw [(hlookup c i).resolve_right fun h => hc.1 h.1]
    exact h.bindings c i hc.2

/-- The innermost block of a method is that of the last frame. -/
theorem getLast (h : InMethod P op before o s.engine) (hb : o.blocks.head? = some b) :
    ∃ frame, s.engine.frames.getLast? = some frame ∧ frame.block = b := by
  obtain ⟨l, hl⟩ := List.head?_eq_some_iff.mp hb
  have hblocks := h.blocks
  rw [hl, List.reverse_cons, ← List.append_assoc] at hblocks
  have hlast : (s.engine.frames.map BindingFrame.block).getLast? = some b := by
    rw [Engine.boundBlocks] at hblocks
    simp [hblocks]
  simpa [List.getLast?_map] using hlast

theorem unbind [DecidableEq Op] (h : InMethod P op before o s.engine) (he : Evaluating P op before)
    (hbefore : ScopesInv P before) {frame : BindingFrame Op Blk}
    (hb : o.blocks.head? = some frame.block) :
    InMethod P op before { o with blocks := o.blocks.tail } (s.unbind P frame).engine := by
  obtain ⟨l, hl⟩ := List.head?_eq_some_iff.mp hb
  have hown : (P.parentRegion frame.block).op = op := h.own _ (by simp [hl])
  have hall : s.engine.boundBlocks = before.boundBlocks ++ l.reverse ++ [frame.block] := by
    rw [h.blocks, hl, List.reverse_cons, List.append_assoc]
  have hblocks : (s.unbind P frame).engine.boundBlocks = before.boundBlocks ++ l.reverse := by
    rw [Engine.boundBlocks] at hall
    simp only [State.unbind, Engine.boundBlocks, List.map_dropLast, hall, List.dropLast_concat]
  have hsub : ∀ c, c ∈ (s.unbind P frame).engine.boundBlocks → c ∈ s.engine.boundBlocks := by
    intro c hc
    rw [hall, ← hblocks]
    exact List.mem_append_left _ hc
  have hlookup := State.lookup_unbind (P := P) s frame
  have hnodup := h.inv.nodup
  rw [hall, List.nodup_append] at hnodup
  refine ⟨⟨?_, fun c hc => h.inv.owned c (hsub c hc), ?_⟩, h.active, ?_, h.freezes, ?_, ?_⟩
  · rw [hblocks]
    exact hnodup.1
  · intro c i a ha
    rw [hlookup] at ha
    split at ha
    · simp at ha
    · next hne =>
      obtain ⟨hc, hi⟩ := h.inv.bound c i a ha
      rw [hall, List.mem_append, List.mem_singleton] at hc
      rw [hblocks]
      rcases hc with hc | rfl
      · exact ⟨hc, hi⟩
      · exact absurd ⟨rfl, hi⟩ hne
  · rw [hblocks, hl, List.tail_cons]
  · exact fun c hc => h.own c (List.mem_of_mem_tail hc)
  · intro c i hc
    rw [hl, List.tail_cons] at hc
    rw [hlookup]
    split
    · next heq =>
      -- The method bound the block, so nothing was bound to its arguments before.
      obtain ⟨rfl, -⟩ := heq
      cases hk : before.bindings.lookup (frame.block, i) with
      | none => rfl
      | some a => exact absurd hown (he.2 _ (hbefore.bound _ _ _ hk).1)
    · next hne =>
      by_cases hcb : c = frame.block
      · subst hcb
        have hi : ¬ i < P.numArgs frame.block := fun hi => hne ⟨rfl, hi⟩
        cases hk : before.bindings.lookup (frame.block, i) with
        | some a => exact absurd (hbefore.bound _ _ _ hk).2 hi
        | none =>
          cases hk' : s.engine.bindings.lookup (frame.block, i) with
          | some a => exact absurd (h.inv.bound _ _ _ hk').2 hi
          | none => rfl
      · exact h.bindings c i (by simp [hl, hcb, hc])

theorem freeze (h : InMethod P op before o s.engine) :
    InMethod P op before { o with freezes := o.freezes + 1 } s.freeze.engine :=
  ⟨⟨h.inv.nodup, h.inv.owned, h.inv.bound⟩, h.active, h.blocks, by
    simp [State.freeze, h.freezes, Nat.add_assoc], h.own, h.bindings⟩

theorem thaw (h : InMethod P op before o s.engine) (hpos : 0 < o.freezes) :
    InMethod P op before { o with freezes := o.freezes - 1 } s.thaw.engine := by
  refine ⟨⟨h.inv.nodup, h.inv.owned, h.inv.bound⟩, h.active, h.blocks, ?_, h.own, h.bindings⟩
  simp only [State.thaw, h.freezes]
  omega

end Writes

end InMethod

/-! ## The theory -/

/-- What tidy models keep.  The only early stops it leaves open are those the theory of the cache
excludes. -/
def scopeTheory (P : Program Op Blk) : Theory Op Blk σ π where
  contract :=
    ⟨fun _ => True, fun s => ScopesInv P s.engine, fun x => x = .outOfFuel ∨ x = .outOfRange⟩
  Inv s := ScopesInv P s.engine
  Rel s s' := SameScopes s.engine s'.engine
  Own _ s s' := SameScopes s.engine s'.engine
  Pre _ v := P.Valid v
  Ans _ _ _ := True
  Within s op := Evaluating P op s.engine
  Uncached _ _ := True
  Key _ _ _ := True
  Missed _ _ _ _ := True
  Compared _ _ _ _ := True
  Found _ _ _ _ _ := True
  Kept _ _ _ := True
  Ready _ _ _ := True
  Results _ op l := l.length = P.numResults op
  Out _ _ _ _ := True

section Theory

variable {P : Program Op Blk} {s t : State Op Blk σ π}

/-- A write that leaves the scopes alone. -/
theorem scopeTheory_allows (hs : ScopesInv P s.engine) (h : SameScopes s.engine t.engine) :
    (scopeTheory P).Allows s t :=
  fun _ => ⟨h.inv hs, h.inv hs, h⟩

theorem scopeTheory_allowsOwn {op : Op} {Q : Prop} (hs : ScopesInv P s.engine)
    (hw : Evaluating P op s.engine) (h : SameScopes s.engine t.engine) (hQ : Q) :
    (scopeTheory P).AllowsOwn op s t Q :=
  fun _ => ⟨h.inv hs, h.inv hs, h, hw.same h, hQ⟩

variable {E : Setup Op Blk σ π} {ask : Value Op Blk → EngineM Op Blk σ π (Answer π)}
  [DecidableEq Op]

/-- **A tidy method** leaves the scopes as it found them, and no assertion on them fails. -/
theorem scopeTheory_runScope {op : Op} {α : Type} {ok : α → Prop} {p : ScopeM Op Blk σ π α}
    (hp : TidyMethod E.program op ok p) (ha : (scopeTheory E.program).Asks ask s.engine.active)
    (hs : ScopesInv E.program s.engine) (hw : Evaluating E.program op s.engine) :
    wp (scopeTheory E.program).contract (runScope E ask p) s fun a t =>
      ScopesInv E.program t.engine ∧ SameScopes s.engine t.engine ∧ ok a := by
  refine wp_mono (hp.wp_run (J := fun o t => InMethod E.program op s.engine o t.engine) ?_
    (.start hs)) ?_
  · intro i o t hi ht
    -- A write, after which the protocol is in its next state.
    have write : ∀ {u : State Op Blk σ π} {o' : OpenScopes Blk},
        InMethod E.program op s.engine o' u.engine → ScopesInv E.program u.engine ∧
          InMethod E.program op s.engine o' u.engine := fun hu => ⟨hu.inv, hu⟩
    cases i with
    | query v =>
      refine wp_bind (wp_mono (ha.spec v t ht.inv hi ht.active) fun a u hu => ?_)
      refine wp_bind (wp_record fun _ => ?_)
      have hin := ht.same hu.2.1
      exact ⟨hin.inv, wp_pure hin⟩
    | declareCost =>
      exact wp_declareCost (fun _ => ht) fun _ _ => write (ht.same ⟨rfl, rfl, rfl, fun _ => rfl⟩)
    | freezeCache => exact wp_record fun _ => write ht.freeze
    | thawCache =>
      have hpos : 0 < t.engine.freezes := by
        have hi : 0 < o.freezes := hi
        rw [ht.freezes]
        omega
      refine wp_bind (wp_read (wp_bind (wp_require (fun hf => ?_) fun _ => ?_)))
      · simp [hpos] at hf
      · exact wp_record fun _ => write (ht.thaw hi)
    | bind block args =>
      obtain ⟨hb, hnew, hargs⟩ := hi
      have hnot := ht.notMem_boundBlocks hw hb hnew
      refine wp_bind (wp_read (wp_bind (wp_require (fun hf => ?_) fun _ => ?_)))
      · simp [hargs] at hf
      · refine wp_bind (wp_require (fun hf => ?_) fun _ => ?_)
        · simp only [List.all_eq_false, decide_eq_true_eq, not_not] at hf
          obtain ⟨frame, hframe, rfl⟩ := hf
          exact absurd (List.mem_map_of_mem hframe) hnot
        · exact wp_record fun _ => write (ht.bind hw hb hnew args)
    | unbind block =>
      obtain ⟨frame, hframe, rfl⟩ := ht.getLast hi
      refine wp_bind (wp_read ?_)
      rw [hframe]
      refine wp_bind (wp_require (fun hf => by simp at hf) fun _ => ?_)
      exact wp_record fun _ => write (ht.unbind hw hs hi)
    | allocate payload =>
      refine wp_bind (wp_read (wp_bind (wp_record fun _ => ?_)))
      exact ⟨ht.inv, wp_pure ht⟩
    | getWorld => exact wp_bind (wp_read (wp_pure ht))
    | setWorld w => exact wp_record fun _ => write (ht.same ⟨rfl, rfl, rfl, fun _ => rfl⟩)
  · rintro a t ⟨o, ⟨rfl, hok⟩, ht⟩
    exact ⟨ht.inv, ht.sameScopes, hok⟩

/-- Memoizing an answer binds nothing. -/
theorem SameScopes.memoize (v : Value Op Blk) (a : Answer π) :
    SameScopes s.engine (s.memoize P v a).engine where
  active := rfl
  blocks := State.memoize.attach_blocks s.engine.frames
  freezes := rfl
  bindings _ := rfl

omit [DecidableEq Op] in
theorem scopeTheory_fill {l : List (Answer π)} {e : ℕ} (hs : ScopesInv P s.engine) :
    wp (scopeTheory P).contract (fill E e l) s fun _ t =>
      ScopesInv P t.engine ∧ SameScopes s.engine t.engine := by
  refine wp_bind (wp_mono (wp_fillSlots (J := fun _ t => SameScopes s.engine t.engine)
    (fun j a t _ ht => ?_) (.refl _)) fun _ t ht => ?_)
  · exact wp_fillSlot (fun _ => Or.inr rfl) (fun _ => ht) (fun _ _ _ _ => ht)
      fun _ _ _ _ _ _ => ⟨ht.inv hs, ht⟩
  · exact wp_record fun _ => ⟨ht.inv hs, ht.inv hs, ht⟩

end Theory

variable [DecidableEq Op]

/-- **The scopes of an engine under tidy models.** -/
theorem scopeTheory_sound [Fintype Op] {E : Setup Op Blk σ π} (hE : E.Tidy) :
    (scopeTheory E.program).Sound E where
  rel_refl s := .refl _
  rel_trans _ _ _ h h' := h.trans h'
  own_of_rel _ _ _ h := h
  own_trans _ _ _ _ h h' := h.trans h'
  own_active _ _ _ h := h.active
  within_stable _ _ _ hm hw := hw.same hm.rel
  unevaluated_stable _ _ _ _ _ _ := trivial
  running_stable _ _ _ _ _ _ := trivial
  missed_stable _ _ _ _ _ _ _ _ := trivial
  found_stable _ _ _ _ _ _ _ _ _ := trivial
  kept_stable _ _ _ _ _ _ _ := trivial
  results_stable _ _ _ _ _ _ h := h
  unanswered _ _ _ _ _ := trivial
  memo_hit _ _ _ _ _ _ := trivial
  memo_add _ _ v a _ hm _ _ _ := scopeTheory_allows hm.inv (.memoize v a)
  ans_memoized _ _ _ _ _ := trivial
  arg _ _ _ _ _ := trivial
  invalid _ _ _ _ hv hi := absurd hv (not_lt.mpr hi)
  constant s op i _ hs _ _ := by
    refine wp_mono (wp_evaluateConstant (Q := fun _ t => SameScopes s.engine t.engine)
      (fun _ => .refl _) (fun _ _ _ _ _ _ _ => .refl _) (fun _ _ _ _ _ _ => ⟨hs, .refl _⟩)
      fun _ _ _ _ _ _ _ => ⟨hs, .refl _⟩) fun r t ht => ⟨ht.inv hs, ht, trivial⟩
  cycle _ _ _ _ _ _ _ _ _ := trivial
  enter s op i model _ hs _ _ _ hact _ := by
    have hinv : ScopesInv E.program (s.enter op).engine :=
      ⟨hs.nodup, fun b hb => Finset.mem_insert_of_mem (hs.owned b hb), hs.bound⟩
    refine ⟨hinv, hinv, Finset.mem_insert_self _ _, fun b hb => ?_⟩
    rintro rfl
    exact hact (hs.owned b hb)
  leave s s' op i a hs _ _ hact hd _ _ := by
    have hactive : (s'.leave op).engine.active = s.engine.active := by
      have h : s'.engine.active = Insert.insert op s.engine.active := hd.own.active
      simp [State.leave, h, hact]
    have hsame : SameScopes s.engine (s'.leave op).engine :=
      ⟨hactive, hd.own.blocks, hd.own.freezes, hd.own.bindings⟩
    exact ⟨hsame.inv hs, hsame.inv hs, hsame, trivial⟩
  cacheable s op model ask hm ha hs hw _ :=
    wp_mono (scopeTheory_runScope (hE op model hm).isCacheable ha hs hw) fun r t ht =>
      ⟨ht.1, ht.2.1, fun _ => trivial, fun _ => trivial, fun _ _ => trivial, fun _ _ _ _ => trivial⟩
  hash s op model ask hm ha hs hw _ _ :=
    wp_mono (scopeTheory_runScope (hE op model hm).getHash ha hs hw) fun r t ht =>
      ⟨ht.1, ht.2.1, fun _ _ => trivial, fun _ _ _ _ => trivial⟩
  unevaluated_search _ _ _ _ _ := trivial
  searching _ _ _ hs hw _ := scopeTheory_allowsOwn hs hw (.refl _) trivial
  candidate_range _ _ _ _ _ _ _ := Or.inr rfl
  scan_length _ _ _ _ _ _ _ := Or.inl rfl
  own _ _ _ _ _ _ hs hw _ _ _ _ := scopeTheory_allowsOwn hs hw (.refl _) trivial
  shape _ _ _ _ _ _ hs hw _ _ _ _ _ := scopeTheory_allowsOwn hs hw (.refl _) trivial
  equivalent s op key n e entry model ask hm ha hs hw _ _ _ _ _ :=
    wp_mono (scopeTheory_runScope ((hE op model hm).isEquivalentTo entry.op) ha hs hw)
      fun r t ht => ⟨ht.1, ht.2.1, trivial⟩
  skipped _ _ _ _ _ _ _ hs hw _ _ _ _ _ _ := scopeTheory_allowsOwn hs hw (.refl _) trivial
  different _ _ _ _ _ _ hs hw _ _ _ _ _ _ := scopeTheory_allowsOwn hs hw (.refl _) trivial
  matching _ _ _ _ _ _ hs hw _ _ _ _ _ _ := scopeTheory_allowsOwn hs hw (.refl _) trivial
  exhausted _ _ _ _ _ _ _ _ _ _ := trivial
  charge _ _ _ _ hs hw _ _ _ _ _ := by
    have hsame : ∀ t : State Op Blk σ π, SameScopes t.engine t.charge.engine := fun _ =>
      ⟨rfl, rfl, rfl, fun _ => rfl⟩
    exact ⟨(hsame _).inv hs, scopeTheory_allowsOwn hs hw (hsame _) ⟨trivial, trivial⟩⟩
  evaluates s op model ask _ hm ha hs hw _ :=
    wp_mono (scopeTheory_runScope (hE op model hm).evaluate ha hs hw) fun l t ht =>
      ⟨ht.1, ht.2.1, ht.2.2, trivial⟩
  count _ _ _ _ _ hl hne := absurd hl hne
  evaluated _ _ _ _ hs hw _ _ _ _ := scopeTheory_allowsOwn hs hw (.refl _) ⟨trivial, trivial⟩
  evaluated_stable _ _ _ _ _ _ _ := trivial
  ready_stable _ _ _ _ _ _ _ := trivial
  ready s op cached _ _ _ _ _ := by rcases cached with ⟨key, _ | e, n⟩ <;> trivial
  reuse _ _ _ _ _ _ hs _ _ _ := scopeTheory_allows hs (.refl _)
  fill _ _ _ _ _ hs _ _ _ _ _ _ _ := scopeTheory_fill hs
  append s₀ s op key n l hs hw _ _ _ _ _ _ _ := by
    refine wp_bind (wp_read (wp_bind (wp_record fun _ => ⟨hs, wp_bind ?_⟩)))
    exact wp_mono (scopeTheory_fill (s := (s.append op key l.length).note _) hs) fun _ u hu =>
      wp_pure ⟨hu.1, hu.2, hw.same hu.2, trivial⟩
  kept _ _ _ _ _ _ _ _ := trivial
  kept_range _ _ _ _ _ _ _ _ := Or.inr rfl
  kept_slot _ _ _ _ _ _ _ _ _ _ _ := trivial
  unstored _ _ _ _ _ _ _ _ _ _ := trivial
  unstored_stable _ _ _ _ _ _ _ _ := trivial
  result _ _ _ _ _ _ _ _ _ _ := trivial
  memo_own _ op i a hs _ _ _ _ _ := scopeTheory_allows hs (.memoize (.result op i) a)
  hit _ _ _ _ _ _ _ _ _ _ _ _ _ _ := trivial
  finish _ _ _ _ _ _ _ _ _ _ _ := trivial

/-! ## Every query -/

/-- No query is running, and nothing is left of the last one. -/
structure Engine.Idle (engine : Engine Op Blk π) : Prop where
  queryAllocator : engine.queryAllocator = none
  frames : engine.frames = []
  bindings : ∀ key, engine.bindings.lookup key = none
  freezes : engine.freezes = 0
  active : engine.active = ∅
  queryAnswers : ∀ v, engine.queryAnswers.lookup v = none

theorem Engine.Idle.scopes {P : Program Op Blk} {engine : Engine Op Blk π} (h : engine.Idle) :
    ScopesInv P engine := by
  have hblocks : engine.boundBlocks = [] := by simp [Engine.boundBlocks, h.frames]
  exact ⟨by simp [hblocks], by simp [hblocks], fun b i a ha => by simp [h.bindings] at ha⟩

/-- A query that starts with nothing open and leaves the scopes as it found them has nothing open
when it ends. -/
theorem Engine.Idle.ended {s u : State Op Blk σ π} (h : s.engine.Idle) (engine budget : ℕ)
    (hsame : SameScopes (s.beginQuery engine budget).engine u.engine) :
    u.engine.scopesEnded = true ∧ u.endQuery.engine.Idle := by
  have hframes : u.engine.frames = [] := by
    have hblocks : u.engine.boundBlocks = s.engine.boundBlocks := hsame.blocks
    simpa [Engine.boundBlocks, h.frames] using hblocks
  have hnone : ∀ key, u.engine.bindings.lookup key = none := fun key =>
    (hsame.bindings key).trans (h.bindings key)
  have hfreeze : u.engine.freezes = 0 := hsame.freezes.trans h.freezes
  refine ⟨?_, rfl, hframes, hnone, hfreeze, hsame.active.trans h.active, by simp [State.endQuery]⟩
  simp [Engine.scopesEnded, hframes, hfreeze, (DenseMap.isEmpty_iff _).mpr hnone]

section Histories

variable [Fintype Op] {E : Setup Op Blk σ π} {past : List (State Op Blk σ π)} {s : State Op Blk σ π}

theorem scopeTheory_query (hE : E.Tidy) (hs : s.engine.Idle) (engine budget : ℕ)
    {value : Value Op Blk} (hv : E.program.Valid value) :
    wp (scopeTheory E.program).contract (query E engine budget value) s fun _ t =>
      t.engine.Idle ∧ charges t.log + t.engine.remaining = charges s.log + budget := by
  refine wp_query (fun hbusy => by simp [hs.queryAllocator] at hbusy) fun _ => ?_
  let t := (s.beginQuery engine budget).note (.queryStarted engine budget value)
  have hstart : SameScopes s.engine t.engine := ⟨rfl, rfl, rfl, fun _ => rfl⟩
  have hinv : ScopesInv E.program t.engine := hstart.inv hs.scopes
  refine ⟨hinv, wp_mono (wp_stepsAt Continues.refl (fun _ _ _ => Continues.trans)
    (continuing_compute _ _ _ t) ((scopeTheory_sound hE).wp_compute (Nat.lt_succ_self _) hinv hv
      trivial (by omega))) fun r u ⟨hu, hcont⟩ => ?_⟩
  -- Handing out the answer and ending the query write no scopes.
  have hend : ∀ (u' : State Op Blk σ π) a, u'.engine = u.engine → charges u'.log = charges u.log →
      u'.engine.scopesEnded = true ∧
      ScopesInv E.program (u'.endQuery.note (.queryEnded engine value a)).engine ∧
      (u'.endQuery.note (.queryEnded engine value a)).engine.Idle ∧
      charges (u'.endQuery.note (.queryEnded engine value a)).log +
        (u'.endQuery.note (.queryEnded engine value a)).engine.remaining =
          charges s.log + budget := by
    intro u' a he hlog
    obtain ⟨hclean, hidle⟩ := hs.ended (u := u') engine budget (by rw [he]; exact hu.2.1)
    refine ⟨hclean, hidle.scopes, hidle, ?_⟩
    calc charges (u'.endQuery.note (.queryEnded engine value a)).log +
        (u'.endQuery.note (.queryEnded engine value a)).engine.remaining
        = charges u.log + u.engine.remaining := by rw [← hlog, ← he]; rfl
      _ = charges t.log + t.engine.remaining := hcont.charged
      _ = charges s.log + budget := rfl
  refine wp_handOut (fun _ => ?_) fun v _ => ?_
  · obtain ⟨hclean, hg, hidle⟩ := hend u r.1 rfl rfl
    exact ⟨fun hleak => by simp [hclean] at hleak, fun _ _ => ⟨hg, hidle⟩⟩
  · intro out u' _
    obtain ⟨hclean, hg, hidle⟩ := hend u' (.known out.value) rfl rfl
    exact ⟨hu.1, fun hleak => by simp [hclean] at hleak, fun _ _ => ⟨hg, hidle⟩⟩

/-- Between queries an engine is idle, and the scopes are in order in every state. -/
theorem scopeTheory_history (hE : E.Tidy) (h : History E past s) :
    s.engine.Idle ∧ ∀ t ∈ past, ScopesInv E.program t.engine := by
  have hidle : ∀ w, (State.init w : State Op Blk σ π).engine.Idle := fun w =>
    ⟨rfl, rfl, fun _ => rfl, rfl, rfl, fun _ => rfl⟩
  refine h.invariant (J := fun s => s.engine.Idle) (fun w => ⟨hidle w, (hidle w).scopes⟩)
    (fun s engine budget value hv hs => ?_) fun s hs => ⟨hs, hs.scopes⟩
  obtain ⟨hg, hq, -⟩ := scopeTheory_query hE hs engine budget hv fun _ _ => trivial
  exact ⟨hg, fun r s' hr => (hq r s' hr).1⟩

/-- A query returns, and leaves the engine idle. -/
theorem query_idle (hE : E.Tidy) (h : History E past s) (engine budget : ℕ) {value : Value Op Blk}
    (hv : E.program.Valid value) :
    ∃ r s', (query E engine budget value s).outcome = .ok (r, s') ∧ s'.engine.Idle ∧
      charges s'.log + s'.engine.remaining = charges s.log + budget := by
  obtain ⟨-, hq, hx⟩ :=
    scopeTheory_query hE (scopeTheory_history hE h).1 engine budget hv fun _ _ => trivial
  cases ho : (query E engine budget value s).outcome with
  | error x =>
    have hcache := (cacheTheory_history h engine budget value).2 x ho
    exact ((hx x ho).elim hcache.1 hcache.2).elim
  | ok r => exact ⟨r.1, r.2, rfl, hq _ _ ho⟩

/-- **Tidy models keep the engine tidy.**  Whatever they ask for and in whatever order, a query that
starts from any state of a context returns: no assertion fails and nothing is read out of range.
Throughout, no block is bound twice, only arguments of bound blocks are, and only blocks of
operations being evaluated; after the query nothing is bound, frozen, memoized or being evaluated,
and what it charged and what remains make up its budget. -/
theorem tidy_query (hE : E.Tidy) (h : History E past s) (engine budget : ℕ) {value : Value Op Blk}
    (hv : E.program.Valid value) :
    (∀ t ∈ (query E engine budget value s).visited, ScopesInv E.program t.engine) ∧
      ∃ r s', (query E engine budget value s).outcome = .ok (r, s') ∧ s'.engine.Idle ∧
        charges s'.log + s'.engine.remaining = charges s.log + budget := by
  obtain ⟨hg, -, -⟩ :=
    scopeTheory_query hE (scopeTheory_history hE h).1 engine budget hv fun _ _ => trivial
  exact ⟨hg, query_idle hE h engine budget hv⟩

theorem reentrantSetup_tidy : reentrantSetup.Tidy := by
  have hqueries : ∀ {α : Type} {op : Fin 10} {ok : α → Prop} {f : Unit → ScopeM _ _ Unit Unit α}
      (l : List (Value (Fin 10) (Fin 2))), (∀ v ∈ l, loopProgram.Valid v) →
      TidyMethod loopProgram op ok (f ()) → TidyMethod loopProgram op ok (queryAll l >>= f) := by
    intro α op ok f l hl hf
    induction l with
    | nil => exact hf
    | cons v l ih => exact ⟨hl v (by simp), fun _ _ => ih fun w hw => hl w (by simp [hw])⟩
  have hvalid := loopProgram_verified.valid
  rintro op model ⟨⟩
  refine ⟨?_, ?_, fun other => ?_, ?_⟩
  · exact hqueries _ (hvalid op) ⟨rfl, trivial⟩
  · exact hqueries _ (hvalid op) ⟨rfl, trivial⟩
  · refine hqueries _ (fun v hv => ?_) ⟨rfl, trivial⟩
    exact (List.mem_append.mp hv).elim (hvalid op v) (hvalid other v)
  · exact hqueries _ (hvalid op) ⟨trivial, fun _ _ => ⟨rfl, by simp⟩⟩

theorem tidy_query_reentrant : ∃ r s',
    (query reentrantSetup 0 100 (.result 8 0) (State.init ())).outcome = .ok (r, s') ∧
      s'.engine.Idle ∧ charges s'.log + s'.engine.remaining = 100 := by
  obtain ⟨-, r, s', hr, hidle, hcharges⟩ :=
    tidy_query reentrantSetup_tidy (.init ()) 0 100
      (show reentrantSetup.program.Valid (.result 8 0) by decide)
  exact ⟨r, s', hr, hidle, by simpa [State.init, charges] using hcharges⟩

end Histories

end MlirInterpreter
