import MlirInterpreter.Dialects.SCF
import MlirInterpreter.Evaluation.Contract
import MlirInterpreter.Reference.Congruence

/-!
# The methods of the shipped models

One specification for each method, in a state in which the method's operation is being evaluated and
nested queries keep the contract: what it returns, and that all it leaves behind are nested queries
and steps it was charged for.  A method that asks for a value passes a signal on; otherwise

* equal keys of `arith` operations mean equal results (`sameResults_of_keys`), and so does a
  completed comparison of two operations with the default key (`wp_isDefaultEquivalent`);
* `evaluate` computes one layer of the reference evaluation.

A loop relates its carried values to those of the reference loop, iteration by iteration
(`wp_iterate`).
-/

set_option autoImplicit false

namespace MlirInterpreter

open Recorded

variable {Op Blk σ : Type} [DecidableEq Op] [DecidableEq Blk] [Fintype Op] {P : Program Op Blk}
  {H : HashFns Op Blk} {mem : Malloc} {exact : Prop}
  {ask : Value Op Blk → EngineM Op Blk σ APInt (Answer APInt)}

/-- Code that runs between two writes, with nested queries that keep the contract. -/
structure Running (P : Program Op Blk) (exact : Prop)
    (ask : Value Op Blk → EngineM Op Blk σ APInt (Answer APInt)) (s : State Op Blk σ APInt) :
    Prop where
  inv : EvalInv P exact s
  asks : (evalTheory P exact).Asks ask s.engine.active

/-- What one step of a method leaves behind. -/
abbrev EvalMoves (P : Program Op Blk) (exact : Prop) (s t : State Op Blk σ APInt) : Prop :=
  (evalTheory P exact).Moves s t

section Rules

variable {s t u : State Op Blk σ APInt}

theorem Running.of_inv (h : Running P exact ask s) (ht : EvalInv P exact t)
    (ha : t.engine.active = s.engine.active) : Running P exact ask t :=
  ⟨ht, ha ▸ h.asks⟩

theorem Running.moves (h : Running P exact ask s) (hm : EvalMoves P exact s t) :
    Running P exact ask t :=
  h.of_inv hm.inv hm.rel.active

theorem EvalMoves.refl (h : EvalInv P exact s) : EvalMoves P exact s s :=
  ⟨h, h, EvalRelBy.refl s, .refl s⟩

theorem EvalMoves.trans (h : EvalMoves P exact s t) (h' : EvalMoves P exact t u) :
    EvalMoves P exact s u :=
  ⟨h.start, h'.inv, EvalRelBy.trans h.rel h'.rel, h.continues.trans h'.continues⟩

theorem EvalMoves.env (h : EvalMoves P exact s t) :
    t.engine.env = s.engine.env := EvalRelBy.env h.rel

theorem AnswerOk.moves {r : Option APInt} {reach : Op → Prop} {a : Answer APInt}
    (h : AnswerOk P exact s r reach a) (hm : EvalMoves P exact s t) :
    AnswerOk P exact t r reach a :=
  h.stable hm.rel.active hm.continues

theorem Usable.moves {v : EvalValue APInt} (h : Usable s v) (hm : EvalMoves P exact s t) :
    Usable t v :=
  h.mono hm.continues.heap.subset hm.continues.queries

/-- A nested query of a method. -/
theorem wp_scope_query {α : Type} (h : Running P exact ask s) {v : Value Op Blk} (hv : P.Valid v)
    {f : Answer APInt → ScopeM Op Blk σ APInt α} {Q : α → State Op Blk σ APInt → Prop}
    (hq : ∀ a t, EvalMoves P exact s t →
      AnswerOk P exact t (reference P s.engine.env v) (Reaches P v) a →
      wp (evalTheory P exact).contract (runScope (shipped P H mem) ask (f a)) t Q) :
    wp (evalTheory P exact).contract (runScope (shipped P H mem) ask (EvalScope.query v >>= f))
      s Q := by
  refine Prog.wp_run_bind ?_
  rw [EvalScope.query, Prog.run_lift]
  refine wp_bind (Theory.wp_moves h.inv (h.asks.continuing v) (h.asks.spec v s h.inv hv rfl) ?_)
  intro a t ht hans
  refine wp_bind (wp_record fun hr => ?_)
  have hinv : EvalInv P exact (t.note (.answered v a)) :=
    ht.inv.of_eq hr rfl rfl rfl rfl rfl ht.inv.frames.loops rfl
  have hm : EvalMoves P exact t (t.note (.answered v a)) :=
    ⟨ht.inv, hinv, ⟨rfl, rfl, fun _ => rfl, rfl, by rw [State.note, work_cons rfl]⟩,
      .noted (by simp) t⟩
  refine ⟨hinv.guar (e := .answered v a) rfl (by simp [Event.isStore]) ?_, wp_pure ?_⟩
  · rintro hA u b ⟨⟩
    exact hans.agrees hA
  · have henv := EvalMoves.env ht
    refine hq a _ (EvalMoves.trans ht hm) ?_
    rw [← henv]
    exact hans.moves hm

/-- A new storage. -/
theorem wp_scope_allocate {α : Type} (h : Running P exact ask s) {payload : APInt}
    {f : EvalValue APInt → ScopeM Op Blk σ APInt α} {Q : α → State Op Blk σ APInt → Prop}
    (hq : ∀ v t, EvalMoves P exact s t → Usable t v → v.payload = payload →
      wp (evalTheory P exact).contract (runScope (shipped P H mem) ask (f v)) t Q) :
    wp (evalTheory P exact).contract
      (runScope (shipped P H mem) ask (EvalScope.allocate payload >>= f)) s Q := by
  refine Prog.wp_run_bind ?_
  rw [EvalScope.allocate, Prog.run_lift]
  refine wp_bind (wp_read (wp_bind (wp_record fun hr => ?_)))
  let v : EvalValue APInt := newStorage mem s.heap (.query s.queries) payload
  obtain ⟨hg, hinv, hrel⟩ := evalTheory_allows (e := .allocated v)
    (t := (s.addStorage v).note (.allocated v)) h.inv rfl rfl rfl rfl rfl rfl hr
  refine ⟨hg, wp_pure (hq _ _ ⟨h.inv, hinv, hrel, .addStorage _ s⟩ ?_ rfl)⟩
  exact ⟨List.mem_cons_self, Or.inr rfl⟩

/-- What a method returns that may pass a signal on. -/
def ResultOk {α : Type} (P : Program Op Blk) (s : State Op Blk σ APInt) (op : Op) (F : α → Prop) :
    EvalResult α → Prop
  | .signal st => SignalOk P s (Below P op) st
  | .completed x => F x

omit [DecidableEq Op] [DecidableEq Blk] [Fintype Op] in
/-- The signal of a value an operation depends on is one of the operation. -/
theorem AnswerOk.signal_below {v : Value Op Blk} {r : Option APInt} {st : Signal} {op : Op}
    (h : AnswerOk P exact s r (Reaches P v) (.signal st)) (hv : v ∈ P.dependencies op) :
    SignalOk P s (Below P op) st :=
  (h.below hv).signal st rfl

omit [DecidableEq Op] [DecidableEq Blk] [Fintype Op] in
theorem Program.mem_dependencies {op : Op} {v : Value Op Blk} (h : v ∈ P.operands op) :
    v ∈ P.dependencies op :=
  List.mem_append_left _ h

end Rules

/-! ## The `arith` operations -/

namespace Arith

open Reference

variable {s t : State Op Blk σ APInt} {op : Op} {l r : Value Op Blk}

/-- What a key says about the operands. -/
def KeyOk (P : Program Op Blk) (s : State Op Blk σ APInt) (op : Op) (l r : Value Op Blk) :
    BinaryKey Op → Prop
  | .identity o => o = op
  | .zeroProduct => isProduct P op = true ∧ (P.Acyclic →
      Reference.isZero (reference P s.engine.env l) = true ∨
        Reference.isZero (reference P s.engine.env r) = true)
  | .operands lhs rhs => Usable s lhs ∧ Usable s rhs ∧ (P.Acyclic →
      reference P s.engine.env l = some lhs.payload ∧ reference P s.engine.env r = some rhs.payload)

theorem KeyOk.moves {key : BinaryKey Op} (h : KeyOk P s op l r key) (hm : EvalMoves P exact s t) :
    KeyOk P t op l r key := by
  cases key with
  | identity o => exact h
  | zeroProduct => exact ⟨h.1, by rw [EvalMoves.env hm]; exact h.2⟩
  | operands lhs rhs =>
    exact ⟨h.1.moves hm, h.2.1.moves hm, by rw [EvalMoves.env hm]; exact h.2.2⟩

omit [DecidableEq Op] [DecidableEq Blk] [Fintype Op] in
/-- A known zero is the value of the operand. -/
theorem isZero_of_answer {v : Option (EvalValue APInt)} {x : Option APInt} {reach : Op → Prop}
    (h : AnswerOk P exact s x reach (.completed v)) (hz : isZero (.completed v) = true)
    (hA : P.Acyclic) : Reference.isZero x = true := by
  cases v with
  | none => simp [isZero] at hz
  | some v =>
    rw [h.known_eq hA]
    exact hz

theorem wp_getKey (h : Running P exact ask s) (ho : P.operands op = [l, r]) (hl : P.Valid l)
    (hr : P.Valid r) :
    wp (evalTheory P exact).contract (runScope (shipped P H mem) ask (getKey P op)) s fun k t =>
      EvalMoves P exact s t ∧ ResultOk P t op (KeyOk P t op l r) k := by
  rw [getKey, ho]
  refine wp_scope_query h hl fun a t ht ha => ?_
  rcases a with lhs | st
  · simp only
    split
    · next hz =>
      rw [Bool.and_eq_true] at hz
      refine Prog.wp_run_ret ⟨ht, hz.1, fun hA => Or.inl ?_⟩
      rw [EvalMoves.env ht]
      exact isZero_of_answer ha hz.2 hA
    · split
      · exact Prog.wp_run_ret ⟨ht, rfl⟩
      · refine wp_scope_query (h.moves ht) hr fun b u hu hb => ?_
        have htu := EvalMoves.trans ht hu
        rcases b with rhs | st
        · simp only
          split
          · next hz =>
            rw [Bool.and_eq_true] at hz
            refine Prog.wp_run_ret ⟨htu, hz.1, fun hA => Or.inr ?_⟩
            rw [EvalMoves.env hu]
            exact isZero_of_answer hb hz.2 hA
          · cases lhs with
            | none => cases rhs <;> exact Prog.wp_run_ret ⟨htu, rfl⟩
            | some lhs =>
              cases rhs with
              | none => exact Prog.wp_run_ret ⟨htu, rfl⟩
              | some rhs =>
                refine Prog.wp_run_ret ⟨htu, (ha.usable lhs rfl).moves hu, hb.usable rhs rfl,
                  fun hA => ?_⟩
                rw [EvalMoves.env htu]
                exact ⟨ha.known_eq hA, EvalMoves.env ht ▸ hb.known_eq hA⟩
        · exact Prog.wp_run_ret ⟨htu, hb.signal_below (P.mem_dependencies (by simp [ho]))⟩
  · exact Prog.wp_run_ret ⟨ht, ha.signal_below (P.mem_dependencies (by simp [ho]))⟩

omit [Fintype Op] in
/-- Values that are equal to the cache have equal contents. -/
theorem payload_eq_of_isEqual {v w : EvalValue APInt} (hs : HandleStore s) (hv : Usable s v)
    (hw : Usable s w) (h : v.isEqual w = true) : v.payload = w.payload := by
  rw [EvalValue.isEqual_iff] at h
  rcases h with h | h
  · rw [eq_of_addr_eq hs.nodup hv.1 hw.1 h]
  · exact h

/-- **Equal keys mean equal results.** -/
theorem sameResults_of_keys (hP : P.Verified) (hs : EvalInv P exact s) {other : Op}
    {l' r' : Value Op Blk} {t : Ty} {key key' : BinaryKey Op} (h₁ : P.ArithShape op l r t)
    (h₂ : P.ArithShape other l' r' t) (harith : P.isArith op = true)
    (hname : (P.kind op).name = (P.kind other).name) (hk : KeyOk P s op l r key)
    (hk' : KeyOk P s other l' r' key')
    (heq : equalKeys (P.kind op).name.isCommutative key key' = true) :
    SameResults P s op other := by
  intro hA i
  have htyped := hs.frames.typed hA
  have typed : ∀ {op : Op} {l r : Value Op Blk}, P.ArithShape op l r t →
      HasType (some t) (reference P s.engine.env l) ∧
        HasType (some t) (reference P s.engine.env r) := fun {op l r} h =>
    ⟨h.lhsType ▸ reference_hasType hP htyped (hP.valid op l (by simp [h.operands])),
      h.rhsType ▸ reference_hasType hP htyped (hP.valid op r (by simp [h.operands]))⟩
  obtain ⟨hl, hr⟩ := typed h₁
  obtain ⟨hl', hr'⟩ := typed h₂
  have harith' : P.isArith other = true := Program.isArith_congr hname ▸ harith
  rw [reference_result hA, reference_result hA, opResult_arith h₁.operands harith,
    opResult_arith h₂.operands harith', ← hname]
  cases key with
  | identity o =>
    cases key' with
    | identity o' =>
      obtain rfl : o = op := hk
      obtain rfl : o' = other := hk'
      have : o = o' := by simpa [equalKeys] using heq
      subst this
      obtain ⟨rfl, rfl⟩ : l = l' ∧ r = r' := by simpa [h₁.operands] using h₂.operands
      rfl
    | zeroProduct => simp [equalKeys] at heq
    | operands _ _ => simp [equalKeys] at heq
  | zeroProduct =>
    cases key' with
    | identity o' => simp [equalKeys] at heq
    | operands _ _ => simp [equalKeys] at heq
    | zeroProduct =>
      -- Both products are a zero of the same type.
      have zero : ∀ {a b : Option APInt}, HasType (some t) a → HasType (some t) b →
          Reference.isZero a = true ∨ Reference.isZero b = true →
          ∃ z, product a b = some z ∧ z.isZero = true ∧ HasType (some t) (some z) := by
        intro a b ha hb hz
        have some_of : ∀ {c : Option APInt}, Reference.isZero c = true →
            ∃ z, c = some z ∧ z.isZero = true := by
          intro c hc
          cases c with
          | none => simp [Reference.isZero] at hc
          | some z => exact ⟨z, rfl, hc⟩
        rw [product]
        split
        · next hza =>
          obtain ⟨z, rfl, hzz⟩ := some_of hza
          exact ⟨z, rfl, hzz, ha⟩
        · next hza =>
          obtain ⟨z, rfl, hzz⟩ := some_of (hz.resolve_left hza)
          exact ⟨z, if_pos hzz, hzz, hb⟩
      obtain ⟨z, hz, hzz, hzt⟩ := zero hl hr (hk.2 hA)
      obtain ⟨z', hz', hzz', hzt'⟩ := zero hl' hr' (hk'.2 hA)
      have hmul : (P.kind op).name = .muli := by simpa [isProduct] using hk.1
      rw [hmul]
      exact hz.trans ((congrArg some (eq_of_isZero hzt hzt' hzz hzz')).trans hz'.symm)
  | operands lhs rhs =>
    cases key' with
    | identity o' => simp [equalKeys] at heq
    | zeroProduct => simp [equalKeys] at heq
    | operands lhs' rhs' =>
      obtain ⟨hu₁, hu₂, hval⟩ := hk
      obtain ⟨hu₁', hu₂', hval'⟩ := hk'
      obtain ⟨hvl, hvr⟩ := hval hA
      obtain ⟨hvl', hvr'⟩ := hval' hA
      simp only [equalKeys, Bool.or_eq_true, Bool.and_eq_true] at heq
      have hpay : ∀ {v w : EvalValue APInt}, Usable s v → Usable s w → v.isEqual w = true →
          v.payload = w.payload := fun hv hw h => payload_eq_of_isEqual hs.handles hv hw h
      rw [hvl, hvr, hvl', hvr']
      rcases heq with ⟨hel, her⟩ | ⟨hcomm, hel, her⟩
      · rw [hpay hu₁ hu₁' hel, hpay hu₂ hu₂' her]
      · rw [hpay hu₁ hu₂' hel, hpay hu₂ hu₁' her]
        exact ofArith_comm hcomm (hvr' ▸ hr') (hvl' ▸ hl')

theorem wp_isEquivalentTo (hP : P.Verified) (h : Running P exact ask s)
    (harith : P.isArith op = true) (other : Op) :
    wp (evalTheory P exact).contract (runScope (shipped P H mem) ask (isEquivalentTo P op other)) s
      fun k t => EvalMoves P exact s t ∧ (k = .completed true → SameResults P t op other) := by
  rw [isEquivalentTo]
  split
  · exact Prog.wp_run_ret ⟨.refl h.inv, by simp⟩
  · next hhead =>
    push Not at hhead
    obtain ⟨hname, htypes, -⟩ := hhead
    have harith' : P.isArith other = true := Program.isArith_congr hname ▸ harith
    obtain ⟨l, r, t, h₁⟩ := hP.arith op harith
    obtain ⟨l', r', t', h₂⟩ := hP.arith other harith'
    obtain rfl : t = t' := by simpa [h₁.results, h₂.results] using htypes
    have key := fun (o : Op) (l r : Value Op Blk) (u : State Op Blk σ APInt)
        (hu : Running P exact ask u) (ho : P.operands o = [l, r]) =>
      show wp (evalTheory P exact).contract (runScope (shipped P H mem) ask (getKey P o)) u _ from
        wp_getKey hu ho (hP.valid o l (by simp [ho])) (hP.valid o r (by simp [ho]))
    refine Prog.wp_run_bind (wp_mono (key op l r s h h₁.operands) fun k u hu => ?_)
    obtain ⟨hu, hk⟩ := hu
    rcases k with k | st
    · refine Prog.wp_run_bind
        (wp_mono (key other l' r' u (h.moves hu) h₂.operands) fun k' v hv => ?_)
      obtain ⟨hv, hk'⟩ := hv
      have hmoves := EvalMoves.trans hu hv
      rcases k' with k' | st
      · refine Prog.wp_run_ret ⟨hmoves, fun heq => ?_⟩
        exact sameResults_of_keys hP hv.inv h₁ h₂ harith hname (KeyOk.moves hk hv) hk'
          (EvalResult.completed.inj heq)
      · exact Prog.wp_run_ret ⟨hmoves, by simp⟩
    · exact Prog.wp_run_ret ⟨hu, by simp⟩

/-- `evaluateKnown` computes a known result from two known operands. -/
theorem wp_evaluateKnown (h : Running P exact ask s) (ho : P.operands op = [l, r])
    (hl : P.Valid l) (hr : P.Valid r) (fn : APInt → APInt → APInt) :
    wp (evalTheory P exact).contract (runScope (shipped P H mem) ask (evaluateKnown P fn op)) s
      fun results t => EvalMoves P exact s t ∧ ∃ a, results = [a] ∧ AnswerOk P exact t
        (both fn (reference P s.engine.env l) (reference P s.engine.env r)) (Below P op) a := by
  rw [evaluateKnown, ho]
  refine wp_scope_query h hl fun a t ht ha => ?_
  rcases a with (_ | lhs) | st
  · refine Prog.wp_run_ret ⟨ht, _, rfl, .of_unknown fun hA he => ?_⟩
    rw [ha.unknown_eq hA he]
    rfl
  · refine wp_scope_query (h.moves ht) hr fun b u hu hb => ?_
    rw [EvalMoves.env ht] at hb
    have htu := EvalMoves.trans ht hu
    rcases b with (_ | rhs) | st
    · refine Prog.wp_run_ret ⟨htu, _, rfl, .of_unknown fun hA he => ?_⟩
      rw [hb.unknown_eq hA he]
      cases reference P s.engine.env l <;> rfl
    · refine wp_scope_allocate (h.moves htu) fun v w hw hv hpay => ?_
      refine Prog.wp_run_ret ⟨EvalMoves.trans htu hw, _, rfl, .of_known hv fun hA => ?_⟩
      rw [ha.known_eq hA, hb.known_eq hA, hpay]
      rfl
    · exact Prog.wp_run_ret ⟨htu, _, rfl,
        .of_signal (hb.signal_below (P.mem_dependencies (by simp [ho])))⟩
  · exact Prog.wp_run_ret ⟨ht, _, rfl,
      .of_signal (ha.signal_below (P.mem_dependencies (by simp [ho])))⟩

/-- `MulIOpEval::evaluate` computes a product. -/
theorem wp_evaluateMul (h : Running P exact ask s) (ho : P.operands op = [l, r])
    (hl : P.Valid l) (hr : P.Valid r) {t : Ty}
    (htyped : P.Acyclic → HasType (some t) (reference P s.engine.env l) ∧
      HasType (some t) (reference P s.engine.env r)) :
    wp (evalTheory P exact).contract (runScope (shipped P H mem) ask (evaluateMul P op)) s
      fun results t => EvalMoves P exact s t ∧ ∃ a, results = [a] ∧ AnswerOk P exact t
        (product (reference P s.engine.env l) (reference P s.engine.env r)) (Below P op) a := by
  rw [evaluateMul, ho]
  refine wp_scope_query h hl fun a t ht ha => ?_
  rcases a with lhs | st
  · simp only
    split
    · next hz =>
      cases lhs with
      | none => simp [isZero] at hz
      | some lhs =>
        refine Prog.wp_run_ret ⟨ht, _, rfl, .of_known (ha.usable lhs rfl) fun hA => ?_⟩
        rw [product, ha.known_eq hA]
        exact if_pos hz
    · next hz =>
      refine wp_scope_query (h.moves ht) hr fun b u hu hb => ?_
      rw [EvalMoves.env ht] at hb
      have htu := EvalMoves.trans ht hu
      rcases b with rhs | st
      · simp only
        split
        · next hz' =>
          cases rhs with
          | none => simp [isZero] at hz'
          | some rhs =>
            refine Prog.wp_run_ret ⟨htu, _, rfl, .of_known (hb.usable rhs rfl) fun hA => ?_⟩
            obtain ⟨htl, htr⟩ := htyped hA
            rw [product_comm htl htr, product, hb.known_eq hA]
            exact if_pos hz'
        · next hz' =>
          -- Neither operand is known to be zero.
          have hnz : ∀ {v : Option (EvalValue APInt)} {x : Option APInt} {reach : Op → Prop},
              AnswerOk P exact u x reach (.completed v) → ¬ isZero (.completed v) = true →
              P.Acyclic → (exact ∨ v ≠ none) → Reference.isZero x = false := by
            intro v x reach hv hz hA he
            cases v with
            | none => rw [hv.unknown_eq hA (he.resolve_right (by simp))]; rfl
            | some v =>
              rw [hv.known_eq hA]
              simpa [isZero, Reference.isZero] using hz
          have ha' := ha.moves hu
          have unknown : lhs = none ∨ rhs = none → AnswerOk P exact u
              (product (reference P s.engine.env l) (reference P s.engine.env r)) (Below P op)
              .unknown := by
            refine fun hnone => .of_unknown fun hA he => ?_
            rw [product, hnz ha' hz hA (Or.inl he), hnz hb hz' hA (Or.inl he)]
            rcases hnone with rfl | rfl
            · rw [ha'.unknown_eq hA he]
              rfl
            · rw [hb.unknown_eq hA he]
              cases reference P s.engine.env l <;> rfl
          cases lhs with
          | none => cases rhs <;> exact Prog.wp_run_ret ⟨htu, _, rfl, unknown (Or.inl rfl)⟩
          | some lhs =>
            cases rhs with
            | none => exact Prog.wp_run_ret ⟨htu, _, rfl, unknown (Or.inr rfl)⟩
            | some rhs =>
              refine wp_scope_allocate (h.moves htu) fun v w hw hv hpay => ?_
              refine Prog.wp_run_ret ⟨EvalMoves.trans htu hw, _, rfl, .of_known hv fun hA => ?_⟩
              rw [product, hnz ha' hz hA (by simp), hnz hb hz' hA (by simp), ha.known_eq hA,
                hb.known_eq hA, hpay]
              rfl
      · exact Prog.wp_run_ret ⟨htu, _, rfl,
          .of_signal (hb.signal_below (P.mem_dependencies (by simp [ho])))⟩
  · exact Prog.wp_run_ret ⟨ht, _, rfl,
      .of_signal (ha.signal_below (P.mem_dependencies (by simp [ho])))⟩

end Arith

end MlirInterpreter
