import MlirInterpreter.Dialects.Confined
import MlirInterpreter.Dialects.Tidy
import MlirInterpreter.Dialects.Typed
import MlirInterpreter.Engine.Soundness
import MlirInterpreter.Evaluation.Queries
import MlirInterpreter.Reference.ArithKey

/-!
# The shipped models are faithful

What a program means to the shipped models is its reference evaluation: its values have together
what they evaluate to when the arguments of blocks are anything of their types
(`referenceMoments`).  What holds of these moments is what the reference evaluation says
(`holds_iff`), so a method that asks is told what the reference evaluation knows (`Told`), and it is
shown here of each method, from what it is told alone, that it keeps its side of the dialogue
(`shipped_faithful`).

Nothing here mentions the cache, the memo or the state of an engine.  `Engine.Soundness` has dealt
with them once for all models.
-/

set_option autoImplicit false

namespace MlirInterpreter

variable {Op Blk σ : Type} [DecidableEq Blk]

/-! ## Methods that only ask -/

/-- **A method that does nothing but ask is faithful if it is tidy**, whatever a program means. -/
theorem OnlyQueries.faithful {π α : Type} {P : Program Op Blk} {M : Set (Moment Op Blk π)} {op : Op}
    {ok : α → Prop} {p : ScopeM Op Blk σ π α} (hq : OnlyQueries p) (hp : TidyMethod P op ok p) :
    FaithfulMethod P M op (fun _ _ => ok) p := by
  have follows : ∀ (t : Talk Blk π) (Q : α → OpenScopes Blk → Prop),
      p.Keeps (scopeProtocol P op) Q t.scopes →
      p.Follows (scopeDialogue P M op) (fun a t => Q a t.scopes) t := by
    intro t Q hk
    clear hp
    induction p generalizing t with
    | ret a => exact hk
    | call i k ih =>
      cases i with
      | query v => exact ⟨⟨hk.1, trivial⟩, fun a _ => ih a (hq a) _ (hk.2 a trivial)⟩
      | _ => exact hq.elim
  exact fun ρ _ _ => follows ⟨.none, ρ, []⟩ _ hp

/-! ## The moments of the reference evaluation -/

variable [Fintype Op] {P : Program Op Blk} [DecidableEq Op]

/-- What the values are when block arguments have the values of the environment.  What does not
exist is nothing. -/
def momentOf (P : Program Op Blk) (env : Env Blk) : Moment Op Blk APInt := fun v =>
  if P.Valid v then reference P env v else none

/-- The moments of the reference evaluation. -/
def referenceMoments (P : Program Op Blk) : Set (Moment Op Blk APInt) :=
  {m | ∃ env : Env Blk, env.WellTyped P ∧ m = momentOf P env}

section Moments

variable {ρ : Bindings Blk APInt} {v : Value Op Blk} {p : APInt}

theorem momentOf_eq_some {env : Env Blk} :
    momentOf P env v = some p ↔ P.Valid v ∧ reference P env v = some p := by
  rw [momentOf]
  split
  · next h => simp [h]
  · next h => simp [h]

theorem referenceMoments_nonempty : (referenceMoments P).Nonempty :=
  ⟨_, .empty, .empty, rfl⟩

omit [DecidableEq Op] [DecidableEq Blk] [Fintype Op] in
/-- An argument that is known exists. -/
theorem Env.WellTyped.valid {env : Env Blk} (h : env.WellTyped P) {b : Blk} {i : ℕ}
    (hp : env b i = some p) : P.Valid (.arg b i : Value Op Blk) := by
  have ht := h b i p hp
  change i < (P.argTypes b).length
  by_contra hlen
  rw [List.getElem?_eq_none (Nat.le_of_not_lt hlen)] at ht
  simp at ht

theorem Env.WellTyped.meets {env : Env Blk} (h : env.WellTyped P) (b : Blk) :
    (momentOf P env).Meets env b :=
  fun _ _ hp => momentOf_eq_some.mpr ⟨h.valid hp, hp⟩

/-- What is known is possible if it has the types of the arguments. -/
theorem possible_iff : Possible (referenceMoments P) ρ ↔ Env.WellTyped P ρ := by
  constructor
  · rintro ⟨_, ⟨env, henv, rfl⟩, hmeets⟩ b i p hp
    exact henv b i p (momentOf_eq_some.mp (hmeets b i p hp)).2
  · exact fun h => ⟨_, ⟨ρ, h, rfl⟩, h.meets⟩

/-- **What holds for what is known is what the reference evaluation says.** -/
theorem holds_iff (hP : P.Verified) (hρ : Env.WellTyped P ρ) :
    Holds P (referenceMoments P) ρ v p ↔ P.Valid v ∧ reference P ρ v = some p := by
  constructor
  · exact fun h => momentOf_eq_some.mp (h _ ⟨ρ, hρ, rfl⟩ fun b _ => Env.WellTyped.meets hρ b)
  · rintro ⟨hv, hp⟩ _ ⟨env, henv, rfl⟩ hmeets
    -- Only arguments of blocks around the value count, and the moment meets those.
    classical
    let near : Env Blk := fun b i => if P.Depends b v then ρ b i else none
    have htyped : near.WellTyped P := by
      intro b i
      simp only [near]
      split
      · exact hρ b i
      · exact .none _
    have hle : near.le env := by
      intro b i x hx
      simp only [near] at hx
      split at hx
      · next hdep =>
        exact (momentOf_eq_some.mp (hmeets b (hdep.inside hP) i x hx)).2
      · simp at hx
    have heq : reference P near v = reference P ρ v :=
      reference_congr fun b hb i => if_pos hb
    exact momentOf_eq_some.mpr ⟨hv, reference_mono hP hle htyped henv hv p (heq.trans hp)⟩

/-- An answer is right if it is what the reference evaluation says, or unknown. -/
theorem right_iff (hP : P.Verified) (hρ : Env.WellTyped P ρ) (hv : P.Valid v) {a : Answer APInt} :
    a.Right P (referenceMoments P) ρ v ↔ Known.le a.payload? (reference P ρ v) :=
  forall_congr' fun _ => imp_congr_right fun _ => (holds_iff hP hρ).trans (and_iff_right hv)

/-- Operations with the same values have the same results. -/
theorem interchangeable_of_reference (hP : P.Verified) (hρ : Env.WellTyped P ρ) {op other : Op}
    (htypes : P.resultTypes op = P.resultTypes other)
    (h : ∀ i, reference P ρ (.result op i) = reference P ρ (.result other i)) :
    Interchangeable P (referenceMoments P) op ρ other := by
  intro i p
  have hvalid : P.Valid (.result op i) ↔ P.Valid (.result other i) := by
    simp only [Program.Valid, Program.numResults, htypes]
  rw [holds_iff hP hρ, holds_iff hP hρ, hvalid, h i]

end Moments

/-! ## Rules -/

/-- The dialogue of a method of `op`, about the reference evaluation. -/
abbrev referenceDialogue (P : Program Op Blk) (op : Op) :
    Dialogue (ScopeOp Op Blk σ APInt) ScopeOp.Response (Talk Blk APInt) :=
  scopeDialogue P (referenceMoments P) op

/-- The method went on: it has open what it had, and holds what it held. -/
structure Talk.Goes {π : Type} (t u : Talk Blk π) : Prop where
  scopes : u.scopes = t.scopes
  known : u.known = t.known
  held : t.held ⊆ u.held

/-- What is known has the types of the arguments, and no two handles share an address. -/
structure Talk.Orderly (P : Program Op Blk) (t : Talk Blk APInt) : Prop where
  typed : Env.WellTyped P t.known
  distinct : ∀ v ∈ t.held, Distinct t.held v

/-- The answer says what the reference evaluation does, and its handle is held. -/
structure Told (P : Program Op Blk) (t : Talk Blk APInt) (v : Value Op Blk) (a : Answer APInt) :
    Prop where
  held : ∀ w, a.value? = some w → w ∈ t.held
  right : Known.le a.payload? (reference P t.known v)

theorem Known.none_le (a : Option APInt) : Known.le none a := fun _ h => by simp at h

section Rules

variable {op : Op} {α β : Type} {Q : α → Talk Blk APInt → Prop} {t u w : Talk Blk APInt}

omit [DecidableEq Blk] in
theorem Talk.Goes.refl (t : Talk Blk APInt) : t.Goes t := ⟨rfl, rfl, List.Subset.refl _⟩

omit [DecidableEq Blk] in
theorem Talk.Goes.trans (h : t.Goes u) (h' : u.Goes w) : t.Goes w :=
  ⟨h'.scopes.trans h.scopes, h'.known.trans h.known, List.Subset.trans h.held h'.held⟩

omit [DecidableEq Op] [DecidableEq Blk] [Fintype Op] in
/-- A new handle is held. -/
theorem Talk.Orderly.hold (h : t.Orderly P) {v : EvalValue APInt} (hv : Distinct t.held v) :
    Talk.Orderly P { t with held := v :: t.held } where
  typed := h.typed
  distinct := by
    intro x hx y hy haddr
    rcases List.mem_cons.mp hx with rfl | hx' <;> rcases List.mem_cons.mp hy with rfl | hy'
    · rfl
    · exact hv y hy' haddr
    · exact (hv x hx' haddr.symm).symm
    · exact h.distinct x hx' y hy' haddr

omit [DecidableEq Op] [DecidableEq Blk] [Fintype Op] in
/-- Handles that are equal to the cache have equal contents. -/
theorem Talk.Orderly.payload_eq (h : t.Orderly P) {v v' : EvalValue APInt} (hv : v ∈ t.held)
    (hv' : v' ∈ t.held) (heq : v.isEqual v' = true) : v.payload = v'.payload := by
  rcases EvalValue.isEqual_iff.mp heq with haddr | hpay
  · rw [h.distinct v' hv' v hv haddr]
  · exact hpay

theorem Told.goes {v : Value Op Blk} {a : Answer APInt} (h : Told P t v a) (hg : t.Goes u) :
    Told P u v a :=
  ⟨fun w hw => hg.held (h.held w hw), hg.known ▸ h.right⟩

/-- The method asks for a value. -/
theorem follows_query (hP : P.Verified) (ht : t.Orderly P) {v : Value Op Blk} (hv : P.Valid v)
    {f : Answer APInt → ScopeM Op Blk σ APInt α}
    (h : ∀ a u, t.Goes u → u.Orderly P → Told P u v a →
      (f a).Follows (referenceDialogue P op) Q u) :
    (EvalScope.query v >>= f).Follows (referenceDialogue P op) Q t := by
  refine .call ⟨hv, trivial⟩ fun a ha => ?_
  have hright := (right_iff hP ht.typed hv).mp ha.1
  rcases a with (_ | w) | st
  · exact h _ t (.refl t) ht ⟨by simp, hright⟩
  · exact h _ { t with held := w :: t.held } ⟨rfl, rfl, List.subset_cons_self _ _⟩
      (ht.hold (ha.2 w rfl)) ⟨by simp, hright⟩
  · exact h _ t (.refl t) ht ⟨by simp, hright⟩

/-- The method makes a value. -/
theorem follows_allocate (ht : t.Orderly P) {payload : APInt}
    {f : EvalValue APInt → ScopeM Op Blk σ APInt α}
    (h : ∀ v u, t.Goes u → u.Orderly P → v ∈ u.held → v.payload = payload →
      (f v).Follows (referenceDialogue P op) Q u) :
    (EvalScope.allocate payload >>= f).Follows (referenceDialogue P op) Q t :=
  .call ⟨trivial, trivial⟩ fun v hv => h v { t with held := v :: t.held }
    ⟨rfl, rfl, List.subset_cons_self _ _⟩ (ht.hold hv.2) List.mem_cons_self hv.1

theorem follows_declareCost {f : Bool → ScopeM Op Blk σ APInt α}
    (h : ∀ r, (f r).Follows (referenceDialogue P op) Q t) :
    (EvalScope.declareCost >>= f).Follows (referenceDialogue P op) Q t :=
  .call ⟨trivial, trivial⟩ fun r _ => h r

/-- A freeze that the method begins and ends with no block bound. -/
theorem follows_withFreeze {p : ScopeM Op Blk σ APInt α} (hblocks : t.scopes.blocks = [])
    (h : p.Follows (referenceDialogue P op)
      (fun a u => u.scopes = { t.scopes with freezes := t.scopes.freezes + 1 } ∧
        Q a { u with scopes := t.scopes })
      { t with scopes := { t.scopes with freezes := t.scopes.freezes + 1 } }) :
    (EvalScope.withFreeze p).Follows (referenceDialogue P op) Q t := by
  refine .call ⟨trivial, trivial⟩ fun _ _ => Prog.Follows.bind (h.mono ?_)
  rintro a ⟨o, ρ, held⟩ ⟨rfl, hQ⟩
  exact .call ⟨Nat.succ_pos _, Or.inl hblocks⟩ fun _ _ => .ret hQ

/-- **A block that the method binds and unbinds.**  What is enclosed is answered for the arguments
of the block, and what is known afterwards is what was known before. -/
theorem follows_withBinding {block : Blk} {args : List (Answer APInt)}
    {p : ScopeM Op Blk σ APInt β} {f : β → ScopeM Op Blk σ APInt α}
    (hown : (P.parentRegion block).op = op) (hnew : block ∉ t.scopes.blocks)
    (hargs : args.length = P.numArgs block) (hfreeze : 0 < t.scopes.freezes)
    (hheld : HeldBy t.held args) (hunbound : ∀ i, t.known block i = none)
    (htyped : Env.WellTyped P (t.known.bind block (args.map Answer.content)))
    (h : p.Follows (referenceDialogue P op)
      (fun b u => Talk.Goes ⟨{ t.scopes with blocks := block :: t.scopes.blocks },
          t.known.bind block (args.map Answer.content), t.held⟩ u ∧
        (f b).Follows (referenceDialogue P op) Q { t with held := u.held })
      ⟨{ t.scopes with blocks := block :: t.scopes.blocks },
        t.known.bind block (args.map Answer.content), t.held⟩) :
    (EvalScope.withBinding block args p >>= f).Follows (referenceDialogue P op) Q t := by
  have hbody : (EvalScope.withBinding block args p).Follows (referenceDialogue P op)
      (fun b u => (f b).Follows (referenceDialogue P op) Q u) t := by
    refine .call ⟨⟨hown, hnew, hargs⟩, hfreeze, hheld, possible_iff.mpr htyped⟩ fun _ _ =>
      Prog.Follows.bind (h.mono ?_)
    rintro b ⟨o, ρ, held⟩ ⟨⟨rfl, rfl, -⟩, hf⟩
    refine .call ⟨rfl, trivial⟩ fun _ _ => .ret ?_
    have hback : (t.known.bind block (args.map Answer.content)).unbind block = t.known :=
      Bindings.unbind_bind hunbound _
    change (f b).Follows (referenceDialogue P op) Q
      ⟨t.scopes, (t.known.bind block (args.map Answer.content)).unbind block, held⟩
    rw [hback]
    exact hf
  exact Prog.Follows.bind hbody

end Rules

/-! ## The default cache key -/

section Defaults

variable {op other : Op} {ρ : Bindings Blk APInt}

/-- What a comparison of values says, for what is known. -/
def rightJudging (P : Program Op Blk) (ρ : Bindings Blk APInt) :
    Judging Op Blk (Talk Blk APInt) where
  Inv t := t.Orderly P ∧ t.scopes = .none ∧ t.known = ρ
  Rel _ t := t.Orderly P ∧ t.scopes = .none ∧ t.known = ρ
  Stops _ _ t := t.scopes = .none
  yes x y := reference P ρ x = reference P ρ y
  no _ _ := True

theorem rightJudging_kept (hP : P.Verified) :
    (rightJudging P ρ).Kept (referenceDialogue (σ := σ) P op).logic isEvaluatedValueEqual
      fun x y => P.Valid x ∧ P.Valid y where
  refl _ h := h
  trans _ _ _ _ h := h
  inv _ _ h := h
  stops _ _ _ _ _ h := h
  check t x y := by
    rintro ⟨ht, hs, hk⟩ ⟨hx, hy⟩
    change Prog.Follows _ _ _ (isEvaluatedValueEqual x y)
    rw [isEvaluatedValueEqual]
    split
    · next hxy => exact .ret ⟨⟨ht, hs, hk⟩, congrArg _ hxy⟩
    · refine follows_query hP ht hx fun a u hu hou ha => ?_
      have hus := hu.scopes.trans hs
      have huk := hu.known.trans hk
      rcases a with (_ | v) | st
      · exact .ret ⟨⟨hou, hus, huk⟩, trivial⟩
      · refine follows_query hP hou hy fun b w hw how hb => ?_
        have hws := hw.scopes.trans hus
        have hwk := hw.known.trans huk
        rcases b with (_ | v') | st
        · exact .ret ⟨⟨how, hws, hwk⟩, trivial⟩
        · have ha := ha.goes hw
          refine .ret ?_
          cases heq : v.isEqual v'
          · exact ⟨⟨how, hws, hwk⟩, trivial⟩
          · refine ⟨⟨how, hws, hwk⟩, ?_⟩
            have hval := ha.right v.payload rfl
            have hval' := hb.right v'.payload rfl
            rw [hwk] at hval hval'
            exact hval.trans ((congrArg some (how.payload_eq (ha.held v rfl) (hb.held v' rfl)
              heq)).trans hval'.symm)
        · exact .ret hws
      · exact .ret hus

/-- Operations of different types are not equivalent. -/
theorem isDefaultEquivalent_of_ne (h : P.resultTypes op ≠ P.resultTypes other) :
    (isDefaultEquivalent P op other : ScopeM Op Blk σ APInt (EvalResult Bool)) =
      pure (.completed false) := by
  have hmatch : Matching.matchOperation P (Fintype.card Op + 1) .empty op other = none :=
    Option.eq_none_iff_forall_ne_some.mpr fun m hm =>
      h (Matching.resultTypes_of_matchOperation P hm)
  have hne : op ≠ other := fun heq => h (congrArg _ heq)
  rw [isDefaultEquivalent, isEquivalentTo, if_neg hne, checkOperations, hmatch]

/-- **Operations with equal default keys have the same results**, for what is known. -/
theorem faithful_isDefaultEquivalent (hP : P.Verified) (hA : P.Acyclic) (op other : Op) :
    FaithfulMethod P (referenceMoments P) op
      (fun ρ _ r => r = .completed true → Interchangeable P (referenceMoments P) op ρ other)
      (isDefaultEquivalent P op other : ScopeM Op Blk σ APInt (EvalResult Bool)) := by
  intro ρ hρ _
  have htyped := possible_iff.mp hρ
  by_cases htypes : P.resultTypes op = P.resultTypes other
  · refine Prog.Follows.mono (wp_isEquivalentTo_reference (J := rightJudging P ρ)
      (L := (referenceDialogue P op).logic) (s := ⟨.none, ρ, []⟩) ρ hP (rightJudging_kept hP)
      ⟨⟨htyped, by simp⟩, rfl, rfl⟩) ?_
    rintro ((_ | _) | st) t ht
    · exact ⟨ht.1.2.1, by simp⟩
    · exact ⟨ht.1.2.1, fun _ => interchangeable_of_reference hP htyped htypes
        (ht.2 (fun _ _ h => h) hA htyped)⟩
    · exact ⟨ht, by simp⟩
  · rw [isDefaultEquivalent_of_ne htypes]
    exact .ret ⟨rfl, by simp⟩

end Defaults

/-! ## The `arith` models -/

section Arith

open Arith

variable {op other : Op} {l r : Value Op Blk} {x y : Option APInt} {t u : Talk Blk APInt}

/-- What the key of `op` says of its operands. -/
def KeyHolds (P : Program Op Blk) (t : Talk Blk APInt) (op : Op) (x y : Option APInt) :
    BinaryKey Op → Prop
  | .identity o => o = op
  | .zeroProduct => (P.kind op).name = .muli ∧
      (Reference.isZero x = true ∨ Reference.isZero y = true)
  | .operands lhs rhs => (lhs ∈ t.held ∧ rhs ∈ t.held) ∧ x = some lhs.payload ∧
      y = some rhs.payload

/-- A known zero stays one. -/
theorem isZero_of_le (h : Known.le x y) (hx : Reference.isZero x = true) :
    Reference.isZero y = true := by
  cases x with
  | none => simp [Reference.isZero] at hx
  | some a =>
    rw [h a rfl]
    exact hx

/-- An operand that is a known zero. -/
theorem Told.isZero {v : Value Op Blk} {a : Answer APInt} (h : Told P t v a)
    (ha : Arith.isZero a = true) : Reference.isZero (reference P t.known v) = true :=
  isZero_of_le h.right (isZero_eq a ▸ ha)

omit [DecidableEq Op] [DecidableEq Blk] [Fintype Op] in
theorem KeyHolds.goes {key : BinaryKey Op} (h : KeyHolds P t op x y key) (hg : t.Goes u) :
    KeyHolds P u op x y key := by
  cases key with
  | operands lhs rhs => exact ⟨⟨hg.held h.1.1, hg.held h.1.2⟩, h.2⟩
  | _ => exact h

theorem follows_getKey (hP : P.Verified) (ho : P.operands other = [l, r]) (ht : t.Orderly P) :
    (getKey P other : ScopeM Op Blk σ APInt (EvalResult (BinaryKey Op))).Follows
      (referenceDialogue P op) (fun k u => t.Goes u ∧ u.Orderly P ∧ ∀ key, k = .completed key →
        KeyHolds P u other (reference P t.known l) (reference P t.known r) key) t := by
  have hvalid := hP.valid other
  rw [getKey, ho]
  refine follows_query hP ht (hvalid l (by simp [ho])) fun a u hu hou ha => ?_
  have hl := hu.known ▸ ha.right
  rcases a with lhs | st
  · simp only
    split
    · next hz =>
      rw [Bool.and_eq_true] at hz
      refine .ret ⟨hu, hou, ?_⟩
      rintro _ ⟨⟩
      exact ⟨of_decide_eq_true hz.1, Or.inl (hu.known ▸ ha.isZero hz.2)⟩
    · split
      · refine .ret ⟨hu, hou, ?_⟩
        rintro _ ⟨⟩
        exact rfl
      · refine follows_query hP hou (hvalid r (by simp [ho])) fun b w hw how hb => ?_
        have hg := hu.trans hw
        rcases b with rhs | st
        · simp only
          split
          · next hz =>
            rw [Bool.and_eq_true] at hz
            refine .ret ⟨hg, how, ?_⟩
            rintro _ ⟨⟩
            exact ⟨of_decide_eq_true hz.1, Or.inr (hg.known ▸ hb.isZero hz.2)⟩
          · have ha := ha.goes hw
            rcases lhs with _ | lhs <;> rcases rhs with _ | rhs <;>
              refine .ret ⟨hg, how, ?_⟩ <;> rintro _ ⟨⟩
            · exact rfl
            · exact rfl
            · exact rfl
            · exact ⟨⟨ha.held lhs rfl, hb.held rhs rfl⟩, hg.known ▸ ha.right _ rfl,
                hg.known ▸ hb.right _ rfl⟩
        · exact .ret ⟨hg, how, by simp⟩
  · exact .ret ⟨hu, hou, by simp⟩

omit [DecidableEq Blk] [Fintype Op] in
/-- Keys that are equal to the cache have equal contents. -/
theorem KeyHolds.sameKey {x' y' : Option APInt} {key key' : BinaryKey Op} {commutative : Bool}
    (h : KeyHolds P t op x y key) (h' : KeyHolds P t other x' y' key') (ht : t.Orderly P)
    (heq : equalKeys commutative key key' = true) : SameKey commutative key key' := by
  cases key with
  | identity o => cases key' <;> simp_all [equalKeys, SameKey]
  | zeroProduct => cases key' <;> simp_all [equalKeys, SameKey]
  | operands lhs rhs =>
    cases key' with
    | identity o => simp [equalKeys] at heq
    | zeroProduct => simp [equalKeys] at heq
    | operands lhs' rhs' =>
      obtain ⟨⟨hl, hr⟩, -⟩ := h
      obtain ⟨⟨hl', hr'⟩, -⟩ := h'
      simp only [equalKeys, Bool.or_eq_true, Bool.and_eq_true] at heq
      rcases heq with ⟨hll, hrr⟩ | ⟨hc, hlr, hrl⟩
      · exact Or.inl ⟨ht.payload_eq hl hl' hll, ht.payload_eq hr hr' hrr⟩
      · exact Or.inr ⟨hc, ht.payload_eq hl hr' hlr, ht.payload_eq hr hl' hrl⟩

omit [DecidableEq Op] [DecidableEq Blk] [Fintype Op] in
/-- A key that is not the operation itself fits answers with the contents of the operands. -/
theorem KeyHolds.fits {key : BinaryKey Op} (h : KeyHolds P t op x y key)
    (hne : ∀ o, key ≠ .identity o) :
    ∃ a b : Answer APInt, a.payload? = x ∧ b.payload? = y ∧ KeyFits P op a b key := by
  let known : Option APInt → Answer APInt := fun z => .completed (z.map fun p => ⟨0, .cache, p⟩)
  have hknown : ∀ z, (known z).payload? = z := fun z => by cases z <;> rfl
  cases key with
  | identity o => exact absurd rfl (hne o)
  | zeroProduct =>
    refine ⟨known x, known y, hknown x, hknown y, h.1, ?_⟩
    rw [hknown, hknown]
    exact h.2
  | operands lhs rhs => exact ⟨.known lhs, .known rhs, h.2.1.symm, h.2.2.symm, rfl, rfl⟩

theorem faithful_arithEquivalent (hP : P.Verified) (hA : P.Acyclic) (harith : P.isArith op = true)
    (other : Op) :
    FaithfulMethod P (referenceMoments P) op
      (fun ρ _ r => r = .completed true → Interchangeable P (referenceMoments P) op ρ other)
      (Arith.isEquivalentTo P op other : ScopeM Op Blk σ APInt (EvalResult Bool)) := by
  intro ρ hρ _
  have htyped := possible_iff.mp hρ
  rw [Arith.isEquivalentTo]
  split
  · exact .ret ⟨rfl, by simp⟩
  · next hhead =>
    push Not at hhead
    obtain ⟨hname, htypes, -⟩ := hhead
    have harith' : P.isArith other = true := Program.isArith_congr hname ▸ harith
    obtain ⟨l, r, ty, h⟩ := hP.arith op harith
    obtain ⟨l', r', ty', h'⟩ := hP.arith other harith'
    obtain rfl : ty = ty' := by simpa [h.results, h'.results] using htypes
    refine Prog.Follows.bind ((follows_getKey hP h.operands ⟨htyped, by simp⟩).mono ?_)
    rintro (key | st) t ⟨ht, hot, hkey⟩
    · refine Prog.Follows.bind ((follows_getKey hP h'.operands hot).mono ?_)
      rintro (key' | st) u ⟨hu, hou, hkey'⟩
      · refine .ret ⟨(ht.trans hu).scopes, fun heq => ?_⟩
        have hk := (hkey key rfl).goes hu
        have hk' := hkey' key' rfl
        rw [ht.known] at hk'
        have hsame := hk.sameKey hk' hou (EvalResult.completed.inj heq)
        refine interchangeable_of_reference hP htyped htypes fun i => ?_
        rw [reference_result hA, reference_result hA, Reference.opResult_arith h.operands harith,
          Reference.opResult_arith h'.operands harith']
        by_cases hne : ∀ o, key ≠ .identity o
        · -- The keys tell the operands, and so the results.
          have hne' : ∀ o, key' ≠ .identity o := by
            rintro o rfl
            cases key <;> first | exact hne _ rfl | exact hsame.elim
          obtain ⟨a, b, ha, hb, hfit⟩ := hk.fits hne
          obtain ⟨a', b', ha', hb', hfit'⟩ := hk'.fits hne'
          have typed : ∀ {o : Op} {v : Value Op Blk}, v ∈ P.operands o → P.valueType v = some ty →
              HasType (some ty) (reference P ρ v) := fun hv hty =>
            hty ▸ reference_hasType hP htyped (hP.valid _ _ hv)
          rw [← ha, ← hb, ← ha', ← hb']
          refine hsame.ofArith_eq hname hfit hfit' (t := ty) ?_ ?_ ?_ ?_
          · exact ha ▸ typed (o := op) (by simp [h.operands]) h.lhsType
          · exact hb ▸ typed (o := op) (by simp [h.operands]) h.rhsType
          · exact ha' ▸ typed (o := other) (by simp [h'.operands]) h'.lhsType
          · exact hb' ▸ typed (o := other) (by simp [h'.operands]) h'.rhsType
        · -- The key is the operation.
          push Not at hne
          obtain ⟨o, rfl⟩ := hne
          cases key' with
          | identity o' =>
            obtain rfl : o = op := hk
            obtain rfl : o' = other := hk'
            obtain rfl : o = o' := hsame
            obtain ⟨rfl, rfl⟩ : l = l' ∧ r = r' := by simpa [h.operands] using h'.operands
            rfl
          | zeroProduct => exact hsame.elim
          | operands lhs rhs => exact hsame.elim
      · exact .ret ⟨(ht.trans hu).scopes, by simp⟩
    · exact .ret ⟨ht.scopes, by simp⟩

/-- What `evaluate` has to return. -/
def AnswersRight (P : Program Op Blk) (op : Op) (ρ : Bindings Blk APInt)
    (held : List (EvalValue APInt)) (l : List (Answer APInt)) : Prop :=
  l.length = P.numResults op ∧ HeldBy held l ∧
    ∀ (i : ℕ) a, l[i]? = some a → a.Right P (referenceMoments P) ρ (.result op i)

/-- The one answer about the one result. -/
theorem answersRight_singleton {ρ : Bindings Blk APInt} {held : List (EvalValue APInt)} {ty : Ty}
    (hP : P.Verified) (hA : P.Acyclic) (hρ : Env.WellTyped P ρ) (h : P.ArithShape op l r ty)
    (harith : P.isArith op = true) {a : Answer APInt}
    (hheld : ∀ w, a.value? = some w → w ∈ held)
    (hright : Known.le a.payload?
      (Reference.ofArith (P.kind op).name (reference P ρ l) (reference P ρ r))) :
    AnswersRight P op ρ held [a] := by
  refine ⟨by simp [Program.numResults, h.results], heldBy_singleton hheld, fun i b hb => ?_⟩
  obtain ⟨rfl, rfl⟩ : i = 0 ∧ a = b := by simpa [List.getElem?_singleton] using hb
  have hvalid : P.Valid (.result op 0) := by simp [Program.Valid, Program.numResults, h.results]
  rw [right_iff hP hρ hvalid, reference_result hA, Reference.opResult_arith h.operands harith]
  exact hright

theorem faithful_evaluateKnown (hP : P.Verified) (hA : P.Acyclic) (harith : P.isArith op = true)
    {fn : APInt → APInt → APInt} (hfn : Reference.ofArith (P.kind op).name = Reference.both fn) :
    FaithfulMethod P (referenceMoments P) op (AnswersRight P op)
      (evaluateKnown P fn op : ScopeM Op Blk σ APInt (List (Answer APInt))) := by
  intro ρ hρ _
  have htyped := possible_iff.mp hρ
  obtain ⟨l, r, ty, h⟩ := hP.arith op harith
  have hvalid := hP.valid op
  have single : ∀ {t : Talk Blk APInt} {a : Answer APInt}, t.scopes = .none →
      (∀ w, a.value? = some w → w ∈ t.held) →
      Known.le a.payload? (Reference.both fn (reference P ρ l) (reference P ρ r)) →
      t.scopes = .none ∧ AnswersRight P op ρ t.held [a] := fun hs hheld hright =>
    ⟨hs, answersRight_singleton hP hA htyped h harith hheld (hfn ▸ hright)⟩
  rw [evaluateKnown, h.operands]
  have hl := hvalid l (by simp [h.operands])
  refine follows_query hP ⟨htyped, by simp⟩ hl fun a t ht hot ha => ?_
  rcases a with (_ | lhs) | st
  · exact .ret (single ht.scopes (by simp) (Known.none_le _))
  · refine follows_query hP hot (hvalid r (by simp [h.operands])) fun b u hu hou hb => ?_
    have hg := ht.trans hu
    rcases b with (_ | rhs) | st
    · exact .ret (single hg.scopes (by simp) (Known.none_le _))
    · refine follows_allocate hou fun v w hw how hv hpay => .ret ?_
      have hl := (ha.goes hu).right lhs.payload rfl
      have hr := hb.right rhs.payload rfl
      rw [hg.known] at hl hr
      refine single (hg.trans hw).scopes (by simpa using hv) ?_
      rw [hl, hr, Answer.payload?_known, hpay]
      exact fun _ h => h
    · exact .ret (single hg.scopes (by simp) (Known.none_le _))
  · exact .ret (single ht.scopes (by simp) (Known.none_le _))

/-- A known zero is what was asked for, and a zero. -/
theorem Told.zero {v : Value Op Blk} {a : Answer APInt} (h : Told P t v a)
    (ha : Arith.isZero a = true) : ∃ z : APInt, a.payload? = some z ∧
      reference P t.known v = some z ∧ Reference.isZero (some z) = true := by
  rcases a with (_ | w) | st
  · simp [Arith.isZero] at ha
  · exact ⟨w.payload, rfl, h.right _ rfl, ha⟩
  · simp [Arith.isZero] at ha

theorem faithful_evaluateMul (hP : P.Verified) (hA : P.Acyclic) (harith : P.isArith op = true)
    (hfn : Reference.ofArith (P.kind op).name = Reference.product) :
    FaithfulMethod P (referenceMoments P) op (AnswersRight P op)
      (evaluateMul P op : ScopeM Op Blk σ APInt (List (Answer APInt))) := by
  intro ρ hρ _
  have htyped := possible_iff.mp hρ
  obtain ⟨l, r, ty, h⟩ := hP.arith op harith
  have hvalid := hP.valid op
  have hl := hvalid l (by simp [h.operands])
  have hr := hvalid r (by simp [h.operands])
  have single : ∀ {t : Talk Blk APInt} {a : Answer APInt}, t.scopes = .none →
      (∀ w, a.value? = some w → w ∈ t.held) →
      Known.le a.payload? (Reference.product (reference P ρ l) (reference P ρ r)) →
      t.scopes = .none ∧ AnswersRight P op ρ t.held [a] := fun hs hheld hright =>
    ⟨hs, answersRight_singleton hP hA htyped h harith hheld (hfn ▸ hright)⟩
  rw [evaluateMul, h.operands]
  refine follows_query hP ⟨htyped, by simp⟩ hl fun a t ht hot ha => ?_
  rcases a with lhs | st
  · simp only
    split
    · next hz =>
      obtain ⟨z, hpay, hval, hzero⟩ := ha.zero hz
      refine .ret (single ht.scopes ha.held ?_)
      rw [ht.known] at hval
      rw [hpay, hval, Reference.product, if_pos hzero]
      exact fun _ h => h
    · next hz =>
      refine follows_query hP hot hr fun b u hu hou hb => ?_
      have hg := ht.trans hu
      rcases b with rhs | st
      · simp only
        split
        · next hz' =>
          obtain ⟨z, hpay, hval, hzero⟩ := hb.zero hz'
          refine .ret (single hg.scopes hb.held ?_)
          rw [hg.known] at hval
          rw [product_comm (h.lhsType ▸ reference_hasType hP htyped hl)
            (h.rhsType ▸ reference_hasType hP htyped hr), hpay, hval, Reference.product,
            if_pos hzero]
          exact fun _ h => h
        · next hz' =>
          rcases lhs with _ | lhs <;> rcases rhs with _ | rhs
          · exact .ret (single hg.scopes (by simp) (Known.none_le _))
          · exact .ret (single hg.scopes (by simp) (Known.none_le _))
          · exact .ret (single hg.scopes (by simp) (Known.none_le _))
          · refine follows_allocate hou fun v w hw how hv hpay => .ret ?_
            have hval := (ha.goes hu).right lhs.payload rfl
            have hval' := hb.right rhs.payload rfl
            rw [hg.known] at hval hval'
            have hz : ¬ Reference.isZero (some lhs.payload) = true := hz
            have hz' : ¬ Reference.isZero (some rhs.payload) = true := hz'
            refine single (hg.trans hw).scopes (by simpa using hv) ?_
            rw [hval, hval', Answer.payload?_known, hpay, Reference.product, if_neg hz, if_neg hz']
            exact fun _ h => h
      · exact .ret (single hg.scopes (by simp) (Known.none_le _))
  · exact .ret (single ht.scopes (by simp) (Known.none_le _))

end Arith

/-! ## The `scf.for` model -/

section SCF

open SCF

variable {op : Op} {lb ub step : Value Op Blk} {inits yields : List (Value Op Blk)} {body : Blk}
  {ty : Ty} {t u : Talk Blk APInt}

/-- Values that are all known, as the method was told. -/
def AllTold (P : Program Op Blk) (t : Talk Blk APInt) (vs : List (Value Op Blk))
    (l : List (EvalValue APInt)) : Prop :=
  List.Forall₂ (fun v w => w ∈ t.held ∧ reference P t.known v = some w.payload) vs l

theorem AllTold.held {vs : List (Value Op Blk)} {l : List (EvalValue APInt)} (h : AllTold P t vs l)
    {w : EvalValue APInt} (hw : w ∈ l) : w ∈ t.held := by
  induction h with
  | nil => simp at hw
  | cons hx _ ih =>
    rcases List.mem_cons.mp hw with rfl | hw
    · exact hx.1
    · exact ih hw

theorem follows_queryKnown (hP : P.Verified) {vs : List (Value Op Blk)} (hvs : ∀ v ∈ vs, P.Valid v)
    (ht : t.Orderly P) :
    (queryKnown vs : ScopeM Op Blk σ APInt (Except Exit (List (EvalValue APInt)))).Follows
      (referenceDialogue P op)
      (fun r u => t.Goes u ∧ u.Orderly P ∧ ∀ l, r = .ok l → AllTold P u vs l) t := by
  induction vs generalizing t with
  | nil =>
    refine .ret ⟨.refl t, ht, ?_⟩
    rintro _ ⟨⟩
    exact .nil
  | cons v vs ih =>
    rw [queryKnown]
    refine follows_query hP ht (hvs v (by simp)) fun a u hu hou ha => ?_
    rcases a with (_ | w) | st
    · exact .ret ⟨hu, hou, by simp⟩
    · refine Prog.Follows.bind ((ih (fun x hx => hvs x (by simp [hx])) hou).mono ?_)
      rintro (exit | l) z ⟨hz, hoz, hl⟩
      · exact .ret ⟨hu.trans hz, hoz, by simp⟩
      · refine .ret ⟨hu.trans hz, hoz, ?_⟩
        rintro _ ⟨⟩
        have hw := ha.goes hz
        exact .cons ⟨hw.held w rfl, hw.right w.payload rfl⟩ (hl l rfl)
    · exact .ret ⟨hu, hou, by simp⟩

/-- Answers that are held, each saying no more than the value beside it. -/
def AllHeld (t : Talk Blk APInt) (l : List (Answer APInt)) (values : List (Option APInt)) : Prop :=
  HeldBy t.held l ∧ List.Forall₂ (fun a r => Known.le a.payload? r) l values

omit [DecidableEq Blk] in
theorem AllHeld.contents {l : List (Answer APInt)} {values : List (Option APInt)}
    (h : AllHeld t l values) : List.Forall₂ Known.le (l.map Answer.payload?) values :=
  List.forall₂_map_left_iff.mpr h.2

omit [DecidableEq Blk] in
theorem AllHeld.goes {l : List (Answer APInt)} {values : List (Option APInt)}
    (h : AllHeld t l values) (hg : t.Goes u) : AllHeld u l values :=
  ⟨fun a ha w hw => hg.held (h.1 a ha w hw), h.2⟩

omit [DecidableEq Op] [DecidableEq Blk] [Fintype Op] in
theorem AllHeld.mono {l : List (Answer APInt)} {vs : List (Value Op Blk)}
    {f g : Value Op Blk → Option APInt} (h : AllHeld t l (vs.map f))
    (hfg : ∀ v ∈ vs, Known.le (f v) (g v)) : AllHeld t l (vs.map g) := by
  obtain ⟨hheld, hall⟩ := h
  refine ⟨hheld, ?_⟩
  clear hheld
  induction vs generalizing l with
  | nil => exact hall
  | cons v vs ih =>
    cases hall with
    | cons hv hvs =>
      have hrest := ih (fun u hu => hfg u (by simp [hu])) hvs
      exact .cons (fun x hx => hfg v (by simp) x (hv x hx)) hrest

theorem follows_queryYields (hP : P.Verified) {vs : List (Value Op Blk)}
    (hvs : ∀ v ∈ vs, P.Valid v) (ht : t.Orderly P) :
    (queryYields vs : ScopeM Op Blk σ APInt (Except Signal (List (Answer APInt)))).Follows
      (referenceDialogue P op) (fun r u => t.Goes u ∧ u.Orderly P ∧ ∀ l, r = .ok l →
        AllHeld u l (vs.map (reference P t.known))) t := by
  induction vs generalizing t with
  | nil =>
    refine .ret ⟨.refl t, ht, ?_⟩
    rintro _ ⟨⟩
    exact ⟨by simp [HeldBy], .nil⟩
  | cons v vs ih =>
    rw [queryYields]
    refine follows_query hP ht (hvs v (by simp)) fun a u hu hou ha => ?_
    rcases a with slot | st
    · refine Prog.Follows.bind ((ih (fun x hx => hvs x (by simp [hx])) hou).mono ?_)
      rintro (st | l) z ⟨hz, hoz, hl⟩
      · exact .ret ⟨hu.trans hz, hoz, by simp⟩
      · refine .ret ⟨hu.trans hz, hoz, ?_⟩
        rintro _ ⟨⟩
        obtain ⟨hheld, hall⟩ := hl l rfl
        have hslot := ha.goes hz
        refine ⟨fun b hb w hw => ?_, .cons ?_ (hu.known ▸ hall)⟩
        · rcases List.mem_cons.mp hb with rfl | hb
          · exact hslot.held w hw
          · exact hheld b hb w hw
        · have hright := hslot.right
          rw [hz.known, hu.known] at hright
          exact hright
    · exact .ret ⟨hu, hou, by simp⟩

/-- One answer for every result, held, and none says more than the value of its result. -/
structure Outputs (P : Program Op Blk) (op : Op) (t : Talk Blk APInt) (value : ℕ → Option APInt)
    (l : List (Answer APInt)) : Prop where
  length : l.length = P.numResults op
  held : HeldBy t.held l
  right : ∀ (i : ℕ) a, l[i]? = some a → Known.le a.payload? (value i)

omit [DecidableEq Op] [DecidableEq Blk] [Fintype Op] in
theorem outputs_everyResult {value : ℕ → Option APInt} {a : Answer APInt} (ha : a.value? = none) :
    Outputs P op t value (everyResult P op a) where
  length := length_everyResult a
  held := heldBy_replicate (by simp [ha])
  right i b hb := by
    obtain rfl := (List.mem_replicate.mp (List.mem_of_getElem? hb)).2
    have hnone : b.payload? = none := by simp [Answer.payload?, ha]
    rw [hnone]
    exact Known.none_le _

omit [DecidableEq Op] [DecidableEq Blk] [Fintype Op] in
theorem AllHeld.outputs {l : List (Answer APInt)} {values : List (Option APInt)}
    (h : AllHeld t l values) (hlen : values.length = P.numResults op) :
    Outputs P op t (fun i => (values[i]?).join) l where
  length := h.2.length_eq.trans hlen
  held := h.1
  right i a ha := by
    obtain ⟨hlt, hget⟩ := List.getElem?_eq_some_iff.mp ha
    have hlt' : i < values.length := h.2.length_eq ▸ hlt
    have hle := (List.forall₂_iff_get.mp h.2).2 i hlt hlt'
    simp only [List.get_eq_getElem, hget] at hle
    simpa [List.getElem?_eq_getElem hlt'] using hle

/-- What an iteration yields for fewer carried values is no more. -/
theorem yields_mono (hP : P.Verified) (h : P.LoopShape op lb ub step inits body yields ty)
    {ρ : Env Blk} (hρ : ρ.WellTyped P) {iv : APInt} (hiv : HasType (some ty) (some iv))
    {carried values : List (Option APInt)} (hvalues : ListHasType (P.resultTypes op) values)
    (hle : List.Forall₂ Known.le carried values) :
    (ρ.bind body (some iv :: carried)).WellTyped P ∧ ∀ v ∈ P.yieldedValues body,
      Known.le (reference P (ρ.bind body (some iv :: carried)) v)
        (reference P (ρ.bind body (some iv :: values)) v) := by
  have htyped : (ρ.bind body (some iv :: carried)).WellTyped P :=
    hρ.bind (h.args ▸ .cons hiv (hvalues.of_le hle))
  refine ⟨htyped, fun v hv => reference_mono hP ?_ htyped ?_ (hP.valid_yield hv)⟩
  · exact Env.le_bind (Env.le_refl ρ) body (.cons (fun _ hx => hx) hle)
  · exact hρ.bind (h.args ▸ .cons hiv hvalues)

/-- One iteration: the block is bound, and what the body yields is no more than what the reference
loop carries on. -/
theorem follows_iteration {α : Type} {Q : α → Talk Blk APInt → Prop} (hP : P.Verified)
    (h : P.LoopShape op lb ub step inits body yields ty) (hunbound : ∀ i, t.known body i = none)
    {iv : APInt} (hiv : HasType (some ty) (some iv)) {carried : List (Answer APInt)}
    {values : List (Option APInt)} (hvalues : ListHasType (P.resultTypes op) values)
    (hlen : values.length = P.numResults op) (ht : t.Orderly P) (hb : body ∉ t.scopes.blocks)
    (hf : 0 < t.scopes.freezes) (hc : AllHeld t carried values)
    {f : Except Signal (List (Answer APInt)) → ScopeM Op Blk σ APInt α}
    (hnext : ∀ r u, t.Goes u → u.Orderly P → (∀ l, r = .ok l →
      AllHeld u l (Reference.yields P (reference P) t.known body iv values)) →
      (f r).Follows (referenceDialogue P op) Q u) :
    Prog.Follows (referenceDialogue P op) Q t (do
      let induction ← EvalScope.allocate iv
      f (← EvalScope.withBinding body (.known induction :: carried)
        (queryYields (P.yieldedValues body)))) := by
  have hown : (P.parentRegion body).op = op := by
    rw [Program.parentRegion_of_loopBody (Program.loopBody_eq_some.mpr h.regions)]
  have hlenc : carried.length = P.numResults op := hc.2.length_eq.trans hlen
  refine follows_allocate ht fun v u hu hou hv hpay => ?_
  have hargs : List.map Answer.content (.known v :: carried) =
      some iv :: carried.map Answer.payload? := by
    rw [List.map_cons, Answer.content_known, hpay]
    rfl
  obtain ⟨htyped, hmono⟩ := yields_mono hP h ht.typed hiv hvalues hc.contents
  let inside : Talk Blk APInt := ⟨{ u.scopes with blocks := body :: u.scopes.blocks },
    u.known.bind body (List.map Answer.content (.known v :: carried)), u.held⟩
  have hknown : inside.known = Env.bind t.known body (some iv :: carried.map Answer.payload?) := by
    simp only [inside, hargs, hu.known]
    rfl
  have hinside : inside.Orderly P := ⟨hknown ▸ htyped, hou.distinct⟩
  refine follows_withBinding hown (hu.scopes ▸ hb)
    (by simp [Program.numArgs, h.args, hlenc, Program.numResults]) (hu.scopes ▸ hf) ?_
    (fun i => hu.known ▸ hunbound i) hinside.typed
    ((follows_queryYields hP (fun x hx => hP.valid_yield hx) hinside).mono ?_)
  · intro a ha w hw
    rcases List.mem_cons.mp ha with rfl | ha
    · obtain rfl := Option.some.inj hw
      exact hv
    · exact (hc.goes hu).1 a ha w hw
  · rintro r w ⟨hw, how, hy⟩
    refine ⟨hw, hnext r _ ⟨hu.scopes, hu.known, List.Subset.trans hu.held hw.held⟩
      ⟨hou.typed, how.distinct⟩ fun l hl => ?_⟩
    have hy := hy l hl
    rw [hknown] at hy
    exact hy.mono hmono

/-- **The loop of the engine follows the reference loop**, with less known. -/
theorem follows_iterate (hP : P.Verified) (h : P.LoopShape op lb ub step inits body yields ty)
    (hunbound : ∀ i, t.known body i = none) (isUnsigned : Bool)
    (ubv stepv : APInt) (fuel : ℕ) {iv : APInt} (hiv : HasType (some ty) (some iv))
    {carried : List (Answer APInt)} {values : List (Option APInt)}
    (hvalues : ListHasType (P.resultTypes op) values) (hlen : values.length = P.numResults op)
    (ht : t.Orderly P) (hb : body ∉ t.scopes.blocks) (hf : 0 < t.scopes.freezes)
    (hc : AllHeld t carried values) :
    (iterate P op body isUnsigned ubv stepv fuel iv carried :
      ScopeM Op Blk σ APInt (List (Answer APInt))).Follows (referenceDialogue P op)
        (fun l u => t.Goes u ∧
          Outputs P op u (loopResult P t.known body isUnsigned ubv stepv fuel iv values) l) t := by
  have hyieldTypes : (P.yieldedValues body).map P.valueType = (P.resultTypes op).map some :=
    h.yieldedValues ▸ h.yieldTypes
  induction fuel generalizing t iv carried values with
  | zero => exact .ret ⟨.refl t, outputs_everyResult rfl⟩
  | succ fuel ih =>
    rw [iterate]
    split
    · next hless =>
      refine follows_declareCost fun charged => ?_
      cases charged with
      | false => exact .ret ⟨.refl t, outputs_everyResult rfl⟩
      | true =>
        refine follows_iteration hP h hunbound hiv hvalues hlen ht hb hf hc fun r u hu hou hy => ?_
        rcases r with st | yielded
        · exact .ret ⟨hu, outputs_everyResult rfl⟩
        simp only
        split
        · exact .ret ⟨hu, outputs_everyResult rfl⟩
        · next hov =>
          have hnext : HasType (some ty) (some (addOv isUnsigned iv stepv).1) := by
            rintro x ⟨⟩
            rw [Reference.width_addOv]
            exact hiv iv rfl
          have htyped : Env.WellTyped P (Env.bind t.known body (some iv :: values)) :=
            Env.WellTyped.bind ht.typed (h.args ▸ .cons hiv hvalues)
          have hlen' := congrArg List.length hyieldTypes
          rw [List.length_map, List.length_map] at hlen'
          refine (ih (hu.known ▸ hunbound) hnext (listHasType_map hyieldTypes fun x hx =>
            reference_hasType hP htyped (hP.valid_yield hx)) ?_ hou (hu.scopes ▸ hb)
            (hu.scopes ▸ hf) (hy yielded rfl)).mono ?_
          · rw [List.length_map, hlen', Program.numResults]
          · rintro l w ⟨hw, hout⟩
            refine ⟨hu.trans hw, ?_⟩
            have heq : loopResult P t.known body isUnsigned ubv stepv (fuel + 1) iv values =
                loopResult P t.known body isUnsigned ubv stepv fuel (addOv isUnsigned iv stepv).1
                  (Reference.yields P (reference P) t.known body iv values) := by
              funext i
              simp only [loopResult, Reference.iterate, if_pos hless, if_neg hov]
            rw [heq]
            exact hu.known ▸ hout
    · next hless =>
      refine .ret ⟨.refl t, ?_⟩
      have heq : loopResult P t.known body isUnsigned ubv stepv (fuel + 1) iv values =
          fun i => (values[i]?).join := by
        funext i
        simp only [loopResult, Reference.iterate, if_neg hless, Option.bind_some]
      rw [heq]
      exact hc.outputs hlen

theorem faithful_evaluateLoop (hP : P.Verified) (hA : P.Acyclic) {isUnsigned : Bool}
    (hkind : P.kind op = .scfFor isUnsigned) :
    FaithfulMethod P (referenceMoments P) op (AnswersRight P op)
      (SCF.evaluate P op isUnsigned : ScopeM Op Blk σ APInt (List (Answer APInt))) := by
  intro ρ hρ hown
  have htyped := possible_iff.mp hρ
  obtain ⟨lb, ub, step, inits, body, yields, ty, h⟩ := hP.loop op (by simp [Program.isLoop, hkind])
  have hbody : P.loopBody op = some body := Program.loopBody_eq_some.mpr h.regions
  have hvalid : ∀ v ∈ lb :: ub :: step :: inits, P.Valid v := h.operands ▸ hP.valid op
  have hvalue : ∀ i, reference P ρ (.result op i) =
      (Reference.loop isUnsigned (reference P ρ lb) (reference P ρ ub) (reference P ρ step)
        (inits.map (reference P ρ)) (Reference.yields P (reference P) ρ body)).bind
          fun results => (results[i]?).join := by
    intro i
    rw [reference_result hA, Reference.opResult, hkind, h.operands]
    simp only [hbody]
  -- How the method ends.
  have ends : ∀ {t : Talk Blk APInt} {l : List (Answer APInt)}, t.scopes = .none →
      Outputs P op t (fun i => reference P ρ (.result op i)) l →
      t.scopes = .none ∧ AnswersRight P op ρ t.held l := by
    refine fun {t l} hs hl => ⟨hs, hl.length, hl.held, fun i a ha => ?_⟩
    have hlt := (List.getElem?_eq_some_iff.mp ha).1
    rw [hl.length] at hlt
    have hvalid : P.Valid (.result op i) := hlt
    exact (right_iff hP htyped hvalid).mpr (hl.right i a ha)
  rw [SCF.evaluate, h.operands, hbody]
  refine Prog.Follows.bind ((follows_queryKnown hP (fun v hv => hvalid v ?_)
    ⟨htyped, by simp⟩).mono ?_)
  · simp only [List.mem_cons, List.not_mem_nil, or_false] at hv ⊢
    tauto
  rintro ((st | _) | l) t ⟨ht, hot, hl⟩
  · exact .ret (ends ht.scopes (outputs_everyResult rfl))
  · exact .ret (ends ht.scopes (outputs_everyResult rfl))
  have hl := hl l rfl
  obtain ⟨lbv, ubv, stepv, rfl⟩ := List.length_eq_three.mp hl.length_eq.symm
  obtain ⟨⟨-, hlb⟩, ⟨-, hub⟩, -, hstep⟩ : (lbv ∈ t.held ∧ _) ∧ (ubv ∈ t.held ∧ _) ∧
      stepv ∈ t.held ∧ _ := by
    simpa [AllTold] using hl
  rw [ht.known] at hlb hub hstep
  refine Prog.Follows.bind ((follows_queryKnown hP (fun v hv => hvalid v (by simp [hv]))
    hot).mono ?_)
  rintro ((st | _) | carried) u ⟨hu, hou, hc⟩
  · exact .ret (ends (ht.trans hu).scopes (outputs_everyResult rfl))
  · exact .ret (ends (ht.trans hu).scopes (outputs_everyResult rfl))
  have hc := hc carried rfl
  have hg := ht.trans hu
  have hk : u.known = ρ := hg.known
  simp only
  split
  · exact .ret (ends hg.scopes (outputs_everyResult rfl))
  · next hbad =>
    have hinits : inits.map (reference P ρ) = carried.map fun w => some w.payload := by
      rw [← List.forall₂_eq_eq_eq, List.forall₂_map_left_iff, List.forall₂_map_right_iff]
      exact hc.imp fun v w hw => hk ▸ hw.2
    have hlen : (inits.map (reference P ρ)).length = P.numResults op := by
      have := congrArg List.length h.initTypes
      simpa [Program.numResults] using this
    have hiv : HasType (some ty) (some lbv.payload) := by
      rw [← hlb, ← h.control.1]
      exact reference_hasType hP htyped (hvalid lb (by simp))
    have hvalues : ListHasType (P.resultTypes op) (inits.map (reference P ρ)) :=
      listHasType_map h.initTypes fun v hv =>
        reference_hasType hP htyped (hvalid v (by simp [hv]))
    -- The loop starts where the reference loop does.
    have hcarried : AllHeld u (carried.map .known) (inits.map (reference P ρ)) := by
      refine ⟨fun a ha w hw => ?_, ?_⟩
      · obtain ⟨w', hw', rfl⟩ := List.mem_map.mp ha
        obtain rfl := Option.some.inj hw
        exact hc.held hw'
      · rw [hinits, List.forall₂_map_left_iff, List.forall₂_map_right_iff]
        exact List.forall₂_same.mpr fun w _ _ hx => hx
    have heq : ∀ i, loopResult P ρ body isUnsigned ubv.payload stepv.payload
        (2 ^ lbv.payload.width) lbv.payload (inits.map (reference P ρ)) i =
          reference P ρ (.result op i) := by
      intro i
      have hall : (inits.map (reference P ρ)).all Option.isSome = true := by
        rw [hinits]
        simp
      rw [hvalue, hlb, hub, hstep, Reference.loop]
      simp only [hall, Bool.not_eq_true] at hbad ⊢
      simp only [hbad, Bool.not_false, Bool.and_self, if_true]
      rfl
    let frozen : Talk Blk APInt := { u with scopes := ⟨u.scopes.blocks, u.scopes.freezes + 1⟩ }
    have hblocks : u.scopes.blocks = [] := congrArg OpenScopes.blocks hg.scopes
    have hunbound : ∀ i, frozen.known body i = none := by
      refine fun i => (congrFun₂ hk body i).trans (hown body ?_ i)
      rw [Program.parentRegion_of_loopBody hbody]
    refine follows_withFreeze hblocks ((follows_iterate (t := frozen) hP h hunbound isUnsigned _ _ _
      hiv hvalues hlen ⟨hou.typed, hou.distinct⟩ (by simp [frozen, hblocks]) (Nat.succ_pos _)
      hcarried).mono ?_)
    rintro l w ⟨hw, hout⟩
    refine ⟨hw.scopes, ends hg.scopes ⟨hout.length, hout.held, fun i a ha => ?_⟩⟩
    rw [← heq i]
    exact hk ▸ hout.right i a ha

end SCF

/-! ## The models -/

/-- **The shipped models are faithful**, on a verified program without use-def cycles. -/
theorem shipped_faithful (hP : P.Verified) (hA : P.Acyclic) (H : HashFns Op Blk) (mem : Malloc) :
    (shipped P H mem : Setup Op Blk σ APInt).Faithful (referenceMoments P) where
  op op model hm := by
    have htidy := shipped_tidy hP H mem op model hm
    have hcacheable := OnlyQueries.faithful (M := referenceMoments P)
      (by rw [shippedModels_isCacheable hm]; exact .pure _) htidy.isCacheable
    rcases shippedModels_op hm with ⟨harith, e, rfl, heval⟩ | ⟨u, hkind, rfl⟩
    · refine ⟨hcacheable, (Arith.onlyQueries_getHash P H op).faithful htidy.getHash,
        faithful_arithEquivalent hP hA harith, ?_⟩
      rcases heval with ⟨fn, rfl, hfn⟩ | ⟨rfl, hfn⟩
      · exact faithful_evaluateKnown hP hA harith hfn
      · exact faithful_evaluateMul hP hA harith hfn
    · exact ⟨hcacheable, (onlyQueries_getDefaultHash P H op).faithful htidy.getHash,
        faithful_isDefaultEquivalent hP hA op, faithful_evaluateLoop hP hA hkind⟩
  constant op attr model payload hm hattr hmodel hv i hi m hmem := by
    obtain ⟨env, -, rfl⟩ := hmem
    have hattr : P.constantAttr op = some attr := hattr
    refine momentOf_eq_some.mpr ⟨hi, ?_⟩
    rw [reference_constant hA hm, hattr]
    cases attr with
    | other id => simp [shipped, shippedModels] at hmodel
    | integer value =>
      obtain rfl := Option.some.inj hmodel
      exact hv

/-- The sum of `loopProgram` is what it is when nothing is bound. -/
theorem faithful_query_loopProgram :
    momentOf loopProgram .empty (.result 8 0) = some ⟨indexWidth, 3⟩ := by
  have hrun : (query loopSetup 0 100 (.result 8 0) (State.init ())).value?.map
      (fun r => r.1.payload?) = some (some ⟨indexWidth, 3⟩) := by decide +kernel
  obtain ⟨v, outcome, s', hr, hv⟩ := query_known hrun
  have hvalid : loopSetup.program.Valid (.result 8 0) := by decide
  obtain ⟨-, r, t, ho, hright⟩ := faithful_query (shipped_faithful loopProgram_verified
    loopProgram_acyclic .numbered .next) (shippedModels_confined _ _) referenceMoments_nonempty
    (.init ()) 0 100 hvalid
  obtain ⟨rfl, -⟩ : r = (.known v, outcome) ∧ t = s' := by simpa [hr, eq_comm] using ho
  exact hv ▸ hright v rfl _ ⟨.empty, .empty, rfl⟩

end MlirInterpreter
