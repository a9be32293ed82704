import MlirInterpreter.Refinement.Abstraction

/-!
# The methods of the `arith` models as tasks of the machine

* `getKey` asks for the needs of the operation, and finds its semantic key (`wp_flat_getKey`).
* `isEquivalentTo` asks for the needs of the candidate, if it has to look at keys, and completes
  with whether the operations are alike (`wp_flat_isEquivalentTo`).
* `evaluate` asks for nothing that is not memoized then, and returns the reference value
  (`wp_flat_evaluate`).
-/

set_option autoImplicit false

namespace MlirInterpreter

open Recorded

variable {Op Blk σ : Type} [DecidableEq Op] [DecidableEq Blk] [Fintype Op] {P : Program Op Blk}
  {H : HashFns Op Blk} {mem : Malloc} {s t u : State Op Blk σ APInt}
  {ask : Value Op Blk → EngineM Op Blk σ APInt (Answer APInt)}

/-- An operand whose operation is memoized is answered for nothing. -/
theorem Answered.of_memo {v : Value Op Blk} {a : Answer APInt} (h : Answered P H s v a t)
    (hv : ∀ o, P.arithOp? v = some o → o ∈ (s.sharing P).memo) :
    a.isCompleted = true ∧ t.sharing P = s.sharing P := by
  obtain ⟨hdone, hsharing⟩ := h.run.askAll_memo fun o ho => hv o (Option.mem_toList.mp ho)
  rcases a with x | st
  · exact ⟨rfl, hsharing⟩
  · exact absurd hdone st.reply_ne_done

namespace Arith

open Reference

variable {op other : Op} {l r : Value Op Blk}

/-! ## The needs of an operation -/

theorem needs_of_decides (ho : P.operands op = [l, r])
    (h : decides (isProduct P op) (P.denote l) = true) :
    (sharingGraph P H).needs op = (P.arithOp? l).toList := by
  have hneeded : neededOperands P op = [l] := by
    unfold neededOperands
    rw [ho]
    exact if_pos h
  change (neededOperands P op).filterMap P.arithOp? = _
  rw [hneeded]
  cases h : P.arithOp? l <;> simp [h]

theorem needs_of_not_decides (ho : P.operands op = [l, r])
    (h : decides (isProduct P op) (P.denote l) = false) :
    (sharingGraph P H).needs op = (P.arithOp? l).toList ++ (P.arithOp? r).toList := by
  have hneeded : neededOperands P op = [l, r] := by
    unfold neededOperands
    rw [ho]
    exact if_neg (by simp [h])
  change (neededOperands P op).filterMap P.arithOp? = _
  rw [hneeded]
  cases h : P.arithOp? l <;> cases h' : P.arithOp? r <;> simp [h, h']

/-- Whatever the left operand is, it is asked for first. -/
theorem run_needs_stop (ho : P.operands op = [l, r]) {A : Finset Op} {S T : Sharing.State Op}
    {reply : Sharing.Reply} (hr : reply ≠ .done)
    (h : Sharing.Run (sharingGraph P H) A S (.askAll (P.arithOp? l).toList) reply T) :
    Sharing.Run (sharingGraph P H) A S (.askAll ((sharingGraph P H).needs op)) reply T := by
  cases hd : decides (isProduct P op) (P.denote l) with
  | true => rwa [needs_of_decides ho hd]
  | false => rw [needs_of_not_decides ho hd]; exact h.askAll_stop hr _

/-! ## Keys -/

/-- The key is the semantic key of `op`, with live handles. -/
def KeyIs (P : Program Op Blk) (s : State Op Blk σ APInt) (op : Op) (key : BinaryKey Op) : Prop :=
  SameKey false key (semanticKey P op) ∧
    ∀ lhs rhs, key = .operands lhs rhs → Usable s lhs ∧ Usable s rhs

theorem KeyIs.keeps {key : BinaryKey Op} (h : KeyIs P s op key) (hk : Keeps s t) :
    KeyIs P t op key :=
  ⟨h.1, fun lhs rhs heq => (h.2 lhs rhs heq).imp (fun h => h.keeps hk) fun h => h.keeps hk⟩

omit [DecidableEq Op] [Fintype Op] in
theorem SameKey.mono {key key' : BinaryKey Op} (h : SameKey false key key') (commutative : Bool) :
    SameKey commutative key key' := by
  cases key <;> cases key' <;> try exact h
  exact Or.inl (h.resolve_right fun h => by simp at h)

theorem KeyIs.hash_eq {key : BinaryKey Op} (harith : P.isArith op = true) (h : KeyIs P s op key) :
    (sharingGraph P H).hash op = .inl (hashKey P H op key) := by
  rw [sharingGraph_hash harith, SameKey.hashKey_eq ⟨rfl, rfl, rfl⟩ (h.1.mono _)]

/-- The comparison of keys decides whether operations are alike. -/
theorem KeyIs.equalKeys_iff {key key' : BinaryKey Op} (hs : HandleStore s)
    (hhead : SameHead P op other) (h : KeyIs P s op key) (h' : KeyIs P s other key') :
    equalKeys (P.kind op).name.isCommutative key key' = true ↔ SharesKey P op other := by
  have same : ∀ {v w : EvalValue APInt}, Usable s v → Usable s w →
      (v.isEqual w = true ↔ v.payload = w.payload) := by
    intro v w hv hw
    refine ⟨payload_eq_of_isEqual hs hv hw, fun hpay => ?_⟩
    rw [EvalValue.isEqual_iff]
    exact Or.inr hpay
  have hkeys : equalKeys (P.kind op).name.isCommutative key key' = true ↔
      SameKey (P.kind op).name.isCommutative key key' := by
    cases key with
    | identity o => cases key' <;> simp [equalKeys, SameKey]
    | zeroProduct => cases key' <;> simp [equalKeys, SameKey]
    | operands lhs rhs =>
      cases key' with
      | identity o => simp [equalKeys, SameKey]
      | zeroProduct => simp [equalKeys, SameKey]
      | operands lhs' rhs' =>
        obtain ⟨hl, hr⟩ := h.2 lhs rhs rfl
        obtain ⟨hl', hr'⟩ := h'.2 lhs' rhs' rfl
        simp only [equalKeys, SameKey, Bool.or_eq_true, Bool.and_eq_true, same hl hl', same hr hr',
          same hl hr', same hr hl']
  rw [hkeys]
  exact ⟨fun hsame => ⟨hhead, (h.1.mono _).symm.trans (hsame.trans (h'.1.mono _))⟩,
    fun hshares => (h.1.mono _).trans (hshares.2.trans (h'.1.mono _).symm)⟩

/-- The key of `op` was computed. -/
structure FindsKey (P : Program Op Blk) (H : HashFns Op Blk) (s : State Op Blk σ APInt) (op : Op)
    (k : EvalResult (BinaryKey Op)) (t : State Op Blk σ APInt) : Prop where
  flat : Flat P H t
  keeps : Keeps s t
  run : Sharing.Run (sharingGraph P H) s.engine.active (s.sharing P)
    (.askAll ((sharingGraph P H).needs op))
    k.reply (t.sharing P)
  key : ∀ key, k = .completed key → KeyIs P t op key

omit [DecidableEq Op] [DecidableEq Blk] [Fintype Op] in
/-- Is an operand known to be zero? -/
theorem isZero_right {x : Option APInt} {v : Option (EvalValue APInt)}
    (h : Right s x (.completed v)) :
    isZero (.completed v) = Reference.isZero x := by
  rw [isZero_eq, h.payload rfl]

theorem wp_flat_getKey (ha : FlatAsks P H ask s.engine.active) (hs : Flat P H s)
    (harith : P.isArith op = true) (ho : P.operands op = [l, r]) (hl : P.Valid l) (hr : P.Valid r) :
    wp flatContract (runScope (shipped P H mem) ask (getKey P op)) s fun k t =>
      FindsKey P H s op k t := by
  have hkey := semanticKey_arith harith ho
  rw [getKey, ho]
  refine wp_flat_query ha hs hl fun a t ht => ?_
  rcases a with lhs | st
  · have hx : lhs.map EvalValue.payload = P.denote l := ht.right.payload rfl
    have hzero := isZero_right ht.right
    have hdecides : decides (isProduct P op) (P.denote l) =
        (isProduct P op && isZero (.completed lhs) || lhs.isNone && !isProduct P op) := by
      rw [decides, hzero, ← hx, Option.isNone_map]
    simp only
    split
    · next hz =>
      rw [hz, Bool.true_or] at hdecides
      rw [Bool.and_eq_true, hzero] at hz
      rw [hz.1, keyOf_of_zero (Or.inl hz.2)] at hkey
      refine Prog.wp_run_ret ⟨ht.flat, ht.keeps, needs_of_decides ho hdecides ▸ ht.run, ?_⟩
      rintro _ ⟨⟩
      exact ⟨by rw [hkey]; trivial, by simp⟩
    · next hz =>
      split
      · next hunknown =>
        rw [hunknown, Bool.or_true] at hdecides
        obtain ⟨hnone, hproduct⟩ := Bool.and_eq_true_iff.mp hunknown
        obtain rfl := Option.isNone_iff_eq_none.mp hnone
        rw [keyOf_of_unknown (fun hp => by simp [hp] at hproduct) (Or.inl hx.symm)] at hkey
        refine Prog.wp_run_ret ⟨ht.flat, ht.keeps, needs_of_decides ho hdecides ▸ ht.run, ?_⟩
        rintro _ ⟨⟩
        exact ⟨by rw [hkey]; rfl, by simp⟩
      · next hknown =>
        rw [Bool.eq_false_iff.mpr hz, Bool.eq_false_iff.mpr hknown, Bool.or_false] at hdecides
        have hneeds := needs_of_not_decides (H := H) ho hdecides
        refine wp_flat_query (ht.keeps.active ▸ ha) ht.flat hr fun b u hu => ?_
        have hrun := ht.run.askAll_append (ht.keeps.active ▸ hu.run)
        rw [← hneeds] at hrun
        have hkeeps := ht.keeps.trans hu.keeps
        rcases b with rhs | st
        · have hy : rhs.map EvalValue.payload = P.denote r := hu.right.payload rfl
          have hzero' := isZero_right hu.right
          simp only
          split
          · next hz' =>
            rw [Bool.and_eq_true, hzero'] at hz'
            rw [hz'.1, keyOf_of_zero (Or.inr hz'.2)] at hkey
            refine Prog.wp_run_ret ⟨hu.flat, hkeeps, hrun, ?_⟩
            rintro _ ⟨⟩
            exact ⟨by rw [hkey]; trivial, by simp⟩
          · next hz' =>
            rw [Bool.and_eq_true, hzero] at hz
            rw [Bool.and_eq_true, hzero'] at hz'
            have hnonzero : isProduct P op = true → Reference.isZero (P.denote l) = false ∧
                Reference.isZero (P.denote r) = false := fun hp =>
              ⟨Bool.eq_false_iff.mpr fun h =>
                hz ⟨hp, h⟩, Bool.eq_false_iff.mpr fun h => hz' ⟨hp, h⟩⟩
            have unknown : P.denote l = none ∨ P.denote r = none →
                FindsKey P H s op (.completed (.identity op)) u := by
              intro h
              rw [keyOf_of_unknown hnonzero h] at hkey
              refine ⟨hu.flat, hkeeps, hrun, ?_⟩
              rintro _ ⟨⟩
              exact ⟨by rw [hkey]; rfl, by simp⟩
            cases lhs with
            | none => cases rhs <;> exact Prog.wp_run_ret (unknown (Or.inl hx.symm))
            | some lhs =>
              cases rhs with
              | none => exact Prog.wp_run_ret (unknown (Or.inr hy.symm))
              | some rhs =>
                have hx : P.denote l = some lhs.payload := hx.symm
                have hy : P.denote r = some rhs.payload := hy.symm
                rw [hx, hy, keyOf_of_known (by rwa [hx, hy] at hnonzero)] at hkey
                refine Prog.wp_run_ret ⟨hu.flat, hkeeps, hrun, ?_⟩
                rintro _ ⟨⟩
                refine ⟨by rw [hkey]; exact Or.inl ⟨rfl, rfl⟩, ?_⟩
                rintro _ _ ⟨⟩
                exact ⟨(ht.right.usable lhs rfl).keeps hu.keeps, hu.right.usable rhs rfl⟩
        · exact Prog.wp_run_ret ⟨hu.flat, hkeeps, hrun, by simp⟩
  · exact Prog.wp_run_ret ⟨ht.flat, ht.keeps,
      run_needs_stop ho st.reply_ne_done ht.run, by simp⟩

/-! ## Comparisons -/

/-- `op` was compared with `other`. -/
structure Compares (P : Program Op Blk) (H : HashFns Op Blk) (s : State Op Blk σ APInt)
    (op other : Op)
    (r : EvalResult Bool) (t : State Op Blk σ APInt) : Prop where
  flat : Flat P H t
  keeps : Keeps s t
  /-- No keys had to be looked at. -/
  unlike : ¬ SameHead P op other → r = .completed false ∧ t.sharing P = s.sharing P
  run : SameHead P op other → Sharing.Run (sharingGraph P H) s.engine.active (s.sharing P)
    (.askAll ((sharingGraph P H).needs other)) r.reply (t.sharing P)
  alike : SameHead P op other → ∀ b, r = .completed b → (b = true ↔ SharesKey P op other)

theorem wp_flat_isEquivalentTo (hP : P.Verified) (ha : FlatAsks P H ask s.engine.active)
    (hs : Flat P H s) (harith : P.isArith op = true)
    (hneeds : ∀ y ∈ (sharingGraph P H).needs op, y ∈ (s.sharing P).memo) :
    wp flatContract (runScope (shipped P H mem) ask (isEquivalentTo P op other)) s fun r t =>
      Compares P H s op other r t := by
  rw [isEquivalentTo]
  split
  · next h =>
    have hunlike :
        ¬ SameHead P op other := fun hhead => by simp [hhead.1, hhead.2.1, hhead.2.2] at h
    exact Prog.wp_run_ret ⟨hs, .refl s, fun _ => ⟨rfl, rfl⟩, fun h => absurd h hunlike,
      fun h => absurd h hunlike⟩
  · next h =>
    push Not at h
    have hhead : SameHead P op other := h
    have harith' : P.isArith other = true := Program.isArith_congr hhead.1 ▸ harith
    obtain ⟨l, r, t, hshape⟩ := hP.arith op harith
    obtain ⟨l', r', t', hshape'⟩ := hP.arith other harith'
    refine Prog.wp_run_bind (wp_mono (wp_flat_getKey ha hs harith hshape.operands
      (hP.valid op l (by simp [hshape.operands])) (hP.valid op r (by simp [hshape.operands]))) ?_)
    intro k t hk
    -- The needs of `op` are memoized, so its key is found for nothing.
    obtain ⟨hdone, hsharing⟩ := hk.run.askAll_memo hneeds
    rcases k with key | st
    · refine Prog.wp_run_bind (wp_mono (wp_flat_getKey (hk.keeps.active ▸ ha) hk.flat harith'
        hshape'.operands (hP.valid other l' (by simp [hshape'.operands]))
        (hP.valid other r' (by simp [hshape'.operands]))) ?_)
      intro k' u hk'
      have hrun := hk'.run
      rw [hsharing, hk.keeps.active] at hrun
      have hkeeps := hk.keeps.trans hk'.keeps
      rcases k' with key' | st
      · have hiff := KeyIs.equalKeys_iff hk'.flat.handles hhead ((hk.key key rfl).keeps hk'.keeps)
          (hk'.key key' rfl)
        refine Prog.wp_run_ret ⟨hk'.flat, hkeeps, fun h => absurd hhead h, fun _ => hrun, ?_⟩
        rintro - _ ⟨⟩
        exact hiff
      · exact Prog.wp_run_ret ⟨hk'.flat, hkeeps, fun h => absurd hhead h, fun _ => hrun, by simp⟩
    · exact absurd hdone st.reply_ne_done

/-! ## Evaluation -/

theorem arithOp?_left_needs (ho : P.operands op = [l, r]) {o : Op} (h : P.arithOp? l = some o) :
    o ∈ (sharingGraph P H).needs op := by
  cases hd : decides (isProduct P op) (P.denote l) with
  | true => simp [needs_of_decides ho hd, h]
  | false => simp [needs_of_not_decides ho hd, h]

theorem arithOp?_right_needs (ho : P.operands op = [l, r])
    (hd : decides (isProduct P op) (P.denote l) = false) {o : Op} (h : P.arithOp? r = some o) :
    o ∈ (sharingGraph P H).needs op := by
  simp [needs_of_not_decides ho hd, h]

/-- `evaluate` returned the reference value, and paid nothing. -/
structure ReturnsValue (P : Program Op Blk) (H : HashFns Op Blk) (s : State Op Blk σ APInt)
    (op : Op) (results : List (Answer APInt)) (t : State Op Blk σ APInt) : Prop where
  flat : Flat P H t
  keeps : Keeps s t
  sharing : t.sharing P = s.sharing P
  result : ∃ a, results = [a] ∧ a.isCompleted = true ∧ Right t (P.denote (.result op 0)) a

theorem wp_flat_evaluateKnown (hA : P.Acyclic) (ha : FlatAsks P H ask s.engine.active)
    (hs : Flat P H s) (harith : P.isArith op = true) (ho : P.operands op = [l, r]) (hl : P.Valid l)
    (hr : P.Valid r) (hneeds : ∀ y ∈ (sharingGraph P H).needs op, y ∈ (s.sharing P).memo)
    (hproduct : isProduct P op = false) {fn : APInt → APInt → APInt}
    (hfn : ofArith (P.kind op).name = both fn) :
    wp flatContract (runScope (shipped P H mem) ask (evaluateKnown P fn op)) s fun results t =>
      ReturnsValue P H s op results t := by
  have hvalue : P.denote (.result op 0) = both fn (P.denote l) (P.denote r) := by
    rw [denote_arith hA harith ho, hfn]
  rw [evaluateKnown, ho]
  refine wp_flat_query ha hs hl fun a t ht => ?_
  obtain ⟨hcomp, hsharing⟩ := ht.of_memo fun o h => hneeds o (arithOp?_left_needs ho h)
  rcases a with (_ | lhs) | st
  · have hx : P.denote l = none := (ht.right.payload rfl).symm
    exact Prog.wp_run_ret
      ⟨ht.flat, ht.keeps, hsharing, _, rfl, rfl, .of_unknown (by rw [hvalue, hx]; rfl)⟩
  · have hx : P.denote l = some lhs.payload := (ht.right.payload rfl).symm
    have hdecides : decides (isProduct P op) (P.denote l) = false := by rw [hproduct, hx]; rfl
    refine wp_flat_query (ht.keeps.active ▸ ha) ht.flat hr fun b u hu => ?_
    obtain ⟨hcomp', hsharing'⟩ := hu.of_memo fun o h =>
      hsharing ▸ hneeds o (arithOp?_right_needs ho hdecides h)
    have hkeeps := ht.keeps.trans hu.keeps
    rcases b with (_ | rhs) | st
    · have hy : P.denote r = none := (hu.right.payload rfl).symm
      exact Prog.wp_run_ret ⟨hu.flat, hkeeps, hsharing'.trans hsharing, _, rfl, rfl,
        .of_unknown (by rw [hvalue, hx, hy]; rfl)⟩
    · have hy : P.denote r = some rhs.payload := (hu.right.payload rfl).symm
      refine wp_flat_allocate hu.flat fun v w hw hk hsh hv hpay => ?_
      refine Prog.wp_run_ret
        ⟨hw, hkeeps.trans hk, hsh.trans (hsharing'.trans hsharing), _, rfl, rfl,
        .of_known hv ?_⟩
      rw [hvalue, hx, hy, hpay]
      rfl
    · cases hcomp'
  · cases hcomp

theorem wp_flat_evaluateMul (hA : P.Acyclic) (ha : FlatAsks P H ask s.engine.active)
    (hs : Flat P H s) (harith : P.isArith op = true)
    (ho : P.operands op = [l, r]) (hl : P.Valid l) (hr : P.Valid r)
    (hneeds : ∀ y ∈ (sharingGraph P H).needs op, y ∈ (s.sharing P).memo)
    (hmul : (P.kind op).name = .muli) :
    wp flatContract (runScope (shipped P H mem) ask (evaluateMul P op)) s fun results t =>
      ReturnsValue P H s op results t := by
  have hvalue : P.denote (.result op 0) = product (P.denote l) (P.denote r) := by
    rw [denote_arith hA harith ho, hmul]
    rfl
  have hproduct : isProduct P op = true := by simp [isProduct, hmul]
  rw [evaluateMul, ho]
  refine wp_flat_query ha hs hl fun a t ht => ?_
  obtain ⟨hcomp, hsharing⟩ := ht.of_memo fun o h => hneeds o (arithOp?_left_needs ho h)
  rcases a with lhs | st
  · have hzero := isZero_right ht.right
    have hx : lhs.map EvalValue.payload = P.denote l := ht.right.payload rfl
    simp only
    split
    · next hz =>
      rw [hzero] at hz
      refine Prog.wp_run_ret ⟨ht.flat, ht.keeps, hsharing, _, rfl, rfl, ?_, ht.right.usable⟩
      intro _
      rw [hvalue, product, if_pos hz]
      exact hx
    · next hz =>
      rw [hzero] at hz
      have hdecides : decides (isProduct P op) (P.denote l) = false := by
        rw [hproduct]
        simp [decides, hz]
      refine wp_flat_query (ht.keeps.active ▸ ha) ht.flat hr fun b u hu => ?_
      obtain ⟨hcomp', hsharing'⟩ := hu.of_memo fun o h =>
        hsharing ▸ hneeds o (arithOp?_right_needs ho hdecides h)
      have hkeeps := ht.keeps.trans hu.keeps
      have hsh := hsharing'.trans hsharing
      rcases b with rhs | st
      · have hzero' := isZero_right hu.right
        have hy : rhs.map EvalValue.payload = P.denote r := hu.right.payload rfl
        simp only
        split
        · next hz' =>
          rw [hzero'] at hz'
          refine Prog.wp_run_ret ⟨hu.flat, hkeeps, hsh, _, rfl, rfl, ?_, hu.right.usable⟩
          intro _
          rw [hvalue, product, if_neg hz, if_pos hz']
          exact hy
        · next hz' =>
          rw [hzero'] at hz'
          have hboth : P.denote (.result op 0) = both APInt.mul (P.denote l) (P.denote r) := by
            rw [hvalue, product, if_neg hz, if_neg hz']
          rw [← hx, ← hy] at hboth
          cases lhs with
          | none =>
            cases rhs <;> exact Prog.wp_run_ret
              ⟨hu.flat, hkeeps, hsh, _, rfl, rfl, .of_unknown hboth⟩
          | some lhs =>
            cases rhs with
            | none => exact Prog.wp_run_ret ⟨hu.flat, hkeeps, hsh, _, rfl, rfl, .of_unknown hboth⟩
            | some rhs =>
              refine wp_flat_allocate hu.flat fun v w hw hk hsh' hv hpay => ?_
              refine Prog.wp_run_ret
                ⟨hw, hkeeps.trans hk, hsh'.trans hsh, _, rfl, rfl, .of_known hv ?_⟩
              rw [hboth, hpay]
              rfl
      · cases hcomp'
  · cases hcomp

/-- The evaluation of an `arith` operation whose needs are memoized. -/
theorem wp_flat_evaluate (hP : P.Verified) (hA : P.Acyclic) (ha : FlatAsks P H ask s.engine.active)
    (hs : Flat P H s) (harith : P.isArith op = true) {model : OpModel Op Blk σ APInt}
    (hm : (shippedModels P H).op op = some model)
    (hneeds : ∀ y ∈ (sharingGraph P H).needs op, y ∈ (s.sharing P).memo) :
    wp flatContract (runScope (shipped P H mem) ask model.evaluate) s fun results t =>
      ReturnsValue P H s op results t := by
  obtain ⟨l, r, t, hshape⟩ := hP.arith op harith
  have hl := hP.valid op l (by simp [hshape.operands])
  have hr := hP.valid op r (by simp [hshape.operands])
  obtain ⟨evaluate, rfl, ⟨hmul, rfl⟩ | ⟨hproduct, fn, hfn, rfl⟩⟩ := shipped_arith harith hm
  · exact wp_flat_evaluateMul hA ha hs harith hshape.operands hl hr hneeds hmul
  · exact wp_flat_evaluateKnown hA ha hs harith hshape.operands hl hr hneeds hproduct hfn

end Arith

end MlirInterpreter
