import MlirInterpreter.Reference.Semantics

/-!
# Properties of the reference evaluation

* `value_hasType`: a known value has the width of its type.
* `reference_mono`: a value that is known stays known, and the same, when more arguments are.
* `reference_congr`: a value depends only on the arguments it `Depends` on.
* `Depends.inside`: those are arguments of blocks around its definition.

The rule for loops is `loop_sim`: related initial values and related bodies give related results.
-/

set_option autoImplicit false

namespace MlirInterpreter

/-! ## Loops -/

namespace Reference

variable {isUnsigned : Bool} {f g : APInt → List (Option APInt) → List (Option APInt)}
  {R : List (Option APInt) → List (Option APInt) → Prop}

theorem width_addOv (isUnsigned : Bool) (a b : APInt) :
    (SCF.addOv isUnsigned a b).1.width = a.width := by
  cases isUnsigned <;> rfl

theorem iterate_sim {ub step : APInt} {w : ℕ}
    (hbody : ∀ iv c c', iv.width = w → R c c' → R (f iv c) (g iv c')) {fuel : ℕ}
    {iv : APInt} {c c' r : List (Option APInt)} (hiv : iv.width = w) (hc : R c c')
    (h : iterate isUnsigned ub step f fuel iv c = some r) :
    ∃ r', iterate isUnsigned ub step g fuel iv c' = some r' ∧ R r r' := by
  induction fuel generalizing iv c c' with
  | zero => simp [iterate] at h
  | succ fuel ih =>
    rw [iterate] at h ⊢
    split at h
    · next hless =>
      split at h
      · simp at h
      · next hov =>
        rw [if_pos hless, if_neg hov]
        exact ih ((width_addOv _ _ _).trans hiv) (hbody iv c c' hiv hc) h
    · next hless =>
      rw [if_neg hless]
      exact ⟨c', rfl, Option.some.inj h ▸ hc⟩

/-- **Related loops give related results.** -/
theorem loop_sim {lb ub step lb' ub' step' : Option APInt} {inits inits' r : List (Option APInt)}
    (hlb : ∀ x, lb = some x → lb' = some x) (hub : ∀ x, ub = some x → ub' = some x)
    (hstep : ∀ x, step = some x → step' = some x)
    (hinits : inits.all Option.isSome = true → inits'.all Option.isSome = true ∧ R inits inits')
    (hbody : ∀ iv c c', (∃ x, lb = some x ∧ iv.width = x.width) → R c c' →
      R (f iv c) (g iv c'))
    (h : loop isUnsigned lb ub step inits f = some r) :
    ∃ r', loop isUnsigned lb' ub' step' inits' g = some r' ∧ R r r' := by
  unfold loop at h
  split at h
  · next x y z =>
    rw [hlb x rfl, hub y rfl, hstep z rfl]
    split at h
    · next hcond =>
      rw [Bool.and_eq_true] at hcond
      obtain ⟨hall, hrel⟩ := hinits hcond.1
      simp only [loop, hall, hcond.2, Bool.and_self, if_true]
      exact iterate_sim (fun iv c c' hiv => hbody iv c c' ⟨x, rfl, hiv⟩) rfl hrel h
    · simp at h
  · simp at h

/-- What the f of a loop keeps, its results have. -/
theorem loop_inv {lb ub step : Option APInt} {inits r : List (Option APInt)}
    {J : List (Option APInt) → Prop} (hinits : J inits)
    (hbody : ∀ iv c, (∃ x, lb = some x ∧ iv.width = x.width) → J c → J (f iv c))
    (h : loop isUnsigned lb ub step inits f = some r) : J r := by
  have hsim : ∃ r', loop isUnsigned lb ub step inits f = some r' ∧ J r :=
    loop_sim (R := fun c _ => J c) (fun _ h => h) (fun _ h => h) (fun _ h => h)
      (fun hall => ⟨hall, hinits⟩) (fun iv c _ hiv hc => hbody iv c hiv hc) h
  exact hsim.elim fun _ h => h.2

/-- Bodies that agree on what they keep give equal loops. -/
theorem loop_congr {lb ub step : Option APInt} {inits : List (Option APInt)}
    {J : List (Option APInt) → Prop} (hinits : J inits)
    (hbody : ∀ iv c, (∃ x, lb = some x ∧ iv.width = x.width) → J c →
      f iv c = g iv c ∧ J (f iv c)) :
    loop isUnsigned lb ub step inits f = loop isUnsigned lb ub step inits g := by
  refine Option.ext fun r => ⟨fun h => ?_, fun h => ?_⟩
  · obtain ⟨r', h', rfl, -⟩ := loop_sim (R := fun c c' => c = c' ∧ J c) (g := g)
      (fun _ h => h) (fun _ h => h) (fun _ h => h) (fun hall => ⟨hall, rfl, hinits⟩)
      (fun iv c c' hiv hc => by
        obtain ⟨rfl, hc⟩ := hc
        exact hbody iv c hiv hc) h
    exact h'
  · obtain ⟨r', h', rfl, -⟩ := loop_sim (R := fun c c' => c = c' ∧ J c) (g := f)
      (fun _ h => h) (fun _ h => h) (fun _ h => h) (fun hall => ⟨hall, rfl, hinits⟩)
      (fun iv c c' hiv hc => by
        obtain ⟨rfl, hc⟩ := hc
        have := hbody iv c hiv hc
        exact ⟨this.1.symm, this.1 ▸ this.2⟩) h
    exact h'

end Reference

/-! ## Types -/

/-- A value that is known has the width of the type. -/
def HasType (t : Option Ty) (a : Option APInt) : Prop :=
  ∀ x, a = some x → t.bind Ty.width? = some x.width

theorem HasType.none (t : Option Ty) : HasType t none := fun _ h => by simp at h

/-- Two zeros of one type are the same. -/
theorem eq_of_isZero {t : Option Ty} {a b : APInt} (ha : HasType t (some a))
    (hb : HasType t (some b)) (hza : a.isZero = true) (hzb : b.isZero = true) : a = b := by
  obtain ⟨w, x⟩ := a
  obtain ⟨w', y⟩ := b
  have hw : w = w' := by
    have h := (ha _ rfl).symm.trans (hb _ rfl)
    simpa using h
  subst hw
  simp only [APInt.isZero, decide_eq_true_eq] at hza hzb
  rw [APInt.mk.injEq]
  exact ⟨rfl, heq_of_eq (BitVec.eq_of_toNat_eq (hza.trans hzb.symm))⟩

section

variable {Op Blk : Type} {P : Program Op Blk}

open Reference

/-- Every bound argument has the width of its type. -/
def Env.WellTyped (P : Program Op Blk) (env : Env Blk) : Prop :=
  ∀ b (i : ℕ), HasType (P.argTypes b)[i]? (env b i)

theorem Env.WellTyped.empty : Env.WellTyped P Env.empty := fun _ _ => .none _

/-- Values of the types `ts`. -/
def ListHasType (ts : List Ty) (l : List (Option APInt)) : Prop :=
  ∀ (i : ℕ) a, l[i]? = some a → HasType ts[i]? a

section

variable [DecidableEq Blk]

/-- The environment of an iteration is well typed. -/
theorem Env.WellTyped.bind {env : Env Blk} (h : env.WellTyped P) {b : Blk}
    {args : List (Option APInt)} (ha : ListHasType (P.argTypes b) args) :
    (env.bind b args).WellTyped P := by
  intro c i
  rw [Env.bind]
  split
  · next hcb =>
    subst hcb
    cases hi : args[i]? with
    | none => exact .none _
    | some a => exact ha i a hi
  · exact h c i

theorem ListHasType.cons {t : Ty} {ts : List Ty} {a : Option APInt} {l : List (Option APInt)}
    (ha : HasType (some t) a) (hl : ListHasType ts l) : ListHasType (t :: ts) (a :: l) := by
  intro i x hi
  cases i with
  | zero => simpa using (Option.some.inj hi) ▸ ha
  | succ i => exact hl i x (by simpa using hi)

end

/-- Values of typed operands are typed. -/
theorem listHasType_map {vs : List (Value Op Blk)} {ts : List Ty}
    {f : Value Op Blk → Option APInt} (ht : vs.map P.valueType = ts.map some)
    (h : ∀ v ∈ vs, HasType (P.valueType v) (f v)) : ListHasType ts (vs.map f) := by
  intro i a hi
  obtain ⟨v, hv, rfl⟩ := by simpa [List.getElem?_map] using hi
  have hty : ts[i]? = P.valueType v := by
    have := congrArg (fun l : List (Option Ty) => l[i]?) ht
    simp only [List.getElem?_map, hv, Option.map_some] at this
    cases hts : ts[i]? with
    | none => simp [hts] at this
    | some t => simpa [hts] using this.symm
  rw [hty]
  exact h v (List.mem_of_getElem? hv)

theorem hasType_both {t : Ty} (fn : APInt → APInt → APInt) (hfn : ∀ a b, (fn a b).width = a.width)
    {a b : Option APInt} (ha : HasType (some t) a) : HasType (some t) (both fn a b) := by
  intro x hx
  cases a with
  | none => simp [both] at hx
  | some a =>
    cases b with
    | none => simp [both] at hx
    | some b =>
      obtain rfl : fn a b = x := by simpa [both] using hx
      rw [hfn]
      exact ha a rfl

theorem hasType_product {t : Ty} {a b : Option APInt} (ha : HasType (some t) a)
    (hb : HasType (some t) b) : HasType (some t) (product a b) := by
  rw [product]
  split
  · exact ha
  · split
    · exact hb
    · exact hasType_both APInt.mul (fun _ _ => rfl) ha

/-- The terminator of the body of a verified loop yields values that exist. -/
theorem Program.Verified.valid_yield (hP : P.Verified) {b : Blk} {v : Value Op Blk}
    (h : v ∈ P.yieldedValues b) : P.Valid v := by
  rw [Program.yieldedValues] at h
  split at h
  · exact hP.valid _ v h
  · simp at h

theorem Program.LoopShape.yieldedValues {op : Op} {lb ub step : Value Op Blk}
    {inits yields : List (Value Op Blk)} {body : Blk} {t : Ty}
    (h : P.LoopShape op lb ub step inits body yields t) : P.yieldedValues body = yields := by
  obtain ⟨y, hy, -, hops⟩ := h.terminator
  rw [Program.yieldedValues, hy]
  exact hops

section

variable [DecidableEq Blk]

/-- **A known value has the width of its type.** -/
theorem value_hasType (hP : P.Verified) (n : ℕ) {env : Env Blk} (henv : env.WellTyped P)
    {v : Value Op Blk} (hv : P.Valid v) : HasType (P.valueType v) (value P n env v) := by
  induction n generalizing env v with
  | zero =>
    cases v with
    | arg b i => exact henv b i
    | result op i => exact .none _
  | succ n ih =>
    cases v with
    | arg b i => exact henv b i
    | result op idx =>
      have arith : P.isArith op = true → ∃ l r t, P.operands op = [l, r] ∧
          P.valueType (.result op idx) = some t ∧ HasType (some t) (value P n env l) ∧
          HasType (some t) (value P n env r) := by
        intro ha
        obtain ⟨l, r, t, h⟩ := hP.arith op ha
        obtain rfl : idx = 0 := by
          have hlt : idx < (P.resultTypes op).length := hv
          rw [h.results] at hlt
          simpa using hlt
        refine ⟨l, r, t, h.operands, by simp [Program.valueType, h.results], ?_, ?_⟩
        · exact h.lhsType ▸ ih henv (hP.valid op l (by simp [h.operands]))
        · exact h.rhsType ▸ ih henv (hP.valid op r (by simp [h.operands]))
      rw [value, opResult]
      split
      · next a hk =>
        obtain ⟨t, ht, hw⟩ := hP.constant op a (by simp [Program.constantAttr, hk])
        obtain rfl : idx = 0 := by
          have hlt : idx < (P.resultTypes op).length := hv
          rw [ht] at hlt
          simpa using hlt
        rintro x ⟨⟩
        simpa [Program.valueType, ht] using hw
      · next l r hk ho =>
        obtain ⟨l', r', t, ho', ht, hl, -⟩ := arith (by simp [Program.isArith, hk])
        obtain ⟨rfl, rfl⟩ : l = l' ∧ r = r' := by simpa [ho] using ho'
        exact ht ▸ hasType_both APInt.add (fun _ _ => rfl) hl
      · next l r hk ho =>
        obtain ⟨l', r', t, ho', ht, hl, -⟩ := arith (by simp [Program.isArith, hk])
        obtain ⟨rfl, rfl⟩ : l = l' ∧ r = r' := by simpa [ho] using ho'
        exact ht ▸ hasType_both APInt.sub (fun _ _ => rfl) hl
      · next l r hk ho =>
        obtain ⟨l', r', t, ho', ht, hl, hr⟩ := arith (by simp [Program.isArith, hk])
        obtain ⟨rfl, rfl⟩ : l = l' ∧ r = r' := by simpa [ho] using ho'
        exact ht ▸ hasType_product hl hr
      · next isUnsigned lb ub step inits hk ho =>
        obtain ⟨lb', ub', step', inits', body, yields', t, h⟩ :=
          hP.loop op (by simp [Program.isLoop, hk])
        obtain ⟨rfl, rfl, rfl, rfl⟩ : lb = lb' ∧ ub = ub' ∧ step = step' ∧ inits = inits' := by
          simpa [ho] using h.operands
        simp only [Program.loopBody_eq_some.mpr h.regions]
        cases hres : loop isUnsigned (value P n env lb) (value P n env ub) (value P n env step)
            (inits.map (value P n env)) (yields P (value P n) env body) with
        | none => exact .none _
        | some results =>
          have hJ : ListHasType (P.resultTypes op) results := by
            refine loop_inv (listHasType_map h.initTypes fun v hv => ?_) ?_ hres
            · exact ih henv (hP.valid op v (by simp [h.operands, hv]))
            · rintro iv c ⟨x, hx, hw⟩ hc
              refine listHasType_map (h.yieldedValues ▸ h.yieldTypes) fun v hv => ?_
              refine ih (henv.bind ?_) (hP.valid_yield hv)
              rw [h.args]
              refine .cons ?_ hc
              rintro y ⟨⟩
              have hlb := ih henv (hP.valid op lb (by simp [h.operands])) x hx
              rw [h.control.1] at hlb
              rw [hw]
              exact hlb
          intro x hx
          obtain ⟨a, ha, rfl⟩ : ∃ a, results[idx]? = some a ∧ a = some x := by
            simpa [Option.join_eq_some_iff] using hx
          exact hJ idx _ ha x rfl
      · exact .none _

/-! ## More arguments -/

/-- What is known stays so. -/
def Known.le (a b : Option APInt) : Prop := ∀ x, a = some x → b = some x

theorem both_mono {fn : APInt → APInt → APInt} {a a' b b' : Option APInt} (ha : Known.le a a')
    (hb : Known.le b b') : Known.le (both fn a b) (both fn a' b') := by
  intro x hx
  cases a with
  | none => simp [both] at hx
  | some a =>
    cases b with
    | none => simp [both] at hx
    | some b =>
      rw [ha a rfl, hb b rfl]
      exact hx

theorem product_mono {t : Ty} {a a' b b' : Option APInt} (ha : Known.le a a')
    (hb : Known.le b b') (hta : HasType (some t) a') (htb : HasType (some t) b') :
    Known.le (product a b) (product a' b') := by
  intro x hx
  rw [product] at hx
  split at hx
  · next hza =>
    rw [product, ha x hx, if_pos (hx ▸ hza)]
  · next hza =>
    split at hx
    · next hzb =>
      have hb' := hb x hx
      have hzx : x.isZero = true := by simpa [isZero, hx] using hzb
      rw [product]
      split
      · next hza' =>
        -- Both operands are zero now, and zeros of one type are the same.
        cases a' with
        | none => simp [isZero] at hza'
        | some a' => rw [eq_of_isZero hta (hb' ▸ htb) hza' hzx]
      · rw [if_pos (by rw [hb']; exact hzx), hb']
    · next hzb =>
      have hx' := both_mono ha hb x hx
      cases a with
      | none => simp [both] at hx
      | some a =>
        cases b with
        | none => simp [both] at hx
        | some b =>
          rw [product, ha a rfl, hb b rfl, if_neg (by simpa [isZero] using hza),
            if_neg (by simpa [isZero] using hzb), ← ha a rfl, ← hb b rfl]
          exact hx'

/-- More arguments are known in `env'`. -/
def Env.le (env env' : Env Blk) : Prop := ∀ b i, Known.le (env b i) (env' b i)

/-- Carried values in two iterations: more of them are known in the second, and they are typed. -/
def CarriedLe (ts : List Ty) (c c' : List (Option APInt)) : Prop :=
  List.Forall₂ Known.le c c' ∧ ListHasType ts c ∧ ListHasType ts c'

theorem Env.le_bind {env env' : Env Blk} (h : env.le env') (b : Blk)
    {args args' : List (Option APInt)} (ha : List.Forall₂ Known.le args args') :
    (env.bind b args).le (env'.bind b args') := by
  intro c i
  rw [Env.bind, Env.bind]
  split
  · intro x hx
    cases hi : args[i]? with
    | none => simp [hi] at hx
    | some a =>
      obtain rfl : a = some x := by simpa [hi] using hx
      have hlt := (List.getElem?_eq_some_iff.mp hi).1
      have hlt' : i < args'.length := ha.length_eq ▸ hlt
      have hle := (List.forall₂_iff_get.mp ha).2 i hlt hlt' x (by
        simpa using (List.getElem?_eq_some_iff.mp hi).2)
      rw [List.getElem?_eq_getElem hlt']
      simpa using hle
  · exact h c i

/-- **More arguments, more values**: what is known stays known, and the same. -/
theorem value_mono (hP : P.Verified) (n : ℕ) {env env' : Env Blk} (h : env.le env')
    (ht : env.WellTyped P) (ht' : env'.WellTyped P) {v : Value Op Blk} (hv : P.Valid v) :
    Known.le (value P n env v) (value P n env' v) := by
  induction n generalizing env env' v with
  | zero =>
    cases v with
    | arg b i => exact h b i
    | result op i => intro x hx; simp [value] at hx
  | succ n ih =>
    cases v with
    | arg b i => exact h b i
    | result op idx =>
      have operand : ∀ v ∈ P.operands op, Known.le (value P n env v) (value P n env' v) :=
        fun v hv => ih h ht ht' (hP.valid op v hv)
      rw [value, value, opResult, opResult]
      split
      · exact fun _ h => h
      · next ho => exact both_mono (operand _ (by simp [ho])) (operand _ (by simp [ho]))
      · next ho => exact both_mono (operand _ (by simp [ho])) (operand _ (by simp [ho]))
      · next l r hk ho =>
        obtain ⟨l', r', t, hs⟩ := hP.arith op (by simp [Program.isArith, hk])
        obtain ⟨rfl, rfl⟩ : l = l' ∧ r = r' := by simpa [ho] using hs.operands
        refine product_mono (t := t) (operand _ (by simp [ho])) (operand _ (by simp [ho])) ?_ ?_
        · exact hs.lhsType ▸ value_hasType hP n ht' (hP.valid op l (by simp [ho]))
        · exact hs.rhsType ▸ value_hasType hP n ht' (hP.valid op r (by simp [ho]))
      · next isUnsigned lb ub step inits hk ho =>
        obtain ⟨lb', ub', step', inits', body, yields', t, hs⟩ :=
          hP.loop op (by simp [Program.isLoop, hk])
        obtain ⟨rfl, rfl, rfl, rfl⟩ : lb = lb' ∧ ub = ub' ∧ step = step' ∧ inits = inits' := by
          simpa [ho] using hs.operands
        simp only [Program.loopBody_eq_some.mpr hs.regions]
        intro x hx
        obtain ⟨results, hres, hx⟩ := Option.bind_eq_some_iff.mp hx
        have hinit : ∀ v ∈ inits, P.Valid v := fun v hv => hP.valid op v (by simp [ho, hv])
        have hsim : ∃ r', loop isUnsigned (value P n env' lb) (value P n env' ub)
            (value P n env' step) (inits.map (value P n env')) (yields P (value P n) env' body) =
            some r' ∧ CarriedLe (P.resultTypes op) results r' := by
          refine loop_sim (R := CarriedLe (P.resultTypes op)) (operand _ (by simp [ho]))
            (operand _ (by simp [ho])) (operand _ (by simp [ho])) (fun hall => ?_) ?_ hres
          · refine ⟨?_, ?_, listHasType_map hs.initTypes fun v hv =>
              value_hasType hP n ht (hinit v hv),
              listHasType_map hs.initTypes fun v hv => value_hasType hP n ht' (hinit v hv)⟩
            · rw [List.all_eq_true] at hall ⊢
              intro a ha
              obtain ⟨v, hv, rfl⟩ := List.mem_map.mp ha
              obtain ⟨y, hy⟩ := Option.isSome_iff_exists.mp (hall _ (List.mem_map_of_mem hv))
              rw [operand v (by simp [ho, hv]) y hy, Option.isSome_some]
            · rw [List.forall₂_map_left_iff, List.forall₂_map_right_iff, List.forall₂_same]
              exact fun v hv => operand v (by simp [ho, hv])
          · rintro iv c c' ⟨y, hy, hw⟩ ⟨hle, htc, htc'⟩
            have hiv : HasType (some t) (some iv) := by
              rintro z ⟨⟩
              have hlb := value_hasType hP n ht (hP.valid op lb (by simp [ho])) y hy
              rw [hs.control.1] at hlb
              rw [hw]
              exact hlb
            have hte : (env.bind body (some iv :: c)).WellTyped P :=
              ht.bind (hs.args ▸ .cons hiv htc)
            have hte' : (env'.bind body (some iv :: c')).WellTyped P :=
              ht'.bind (hs.args ▸ .cons hiv htc')
            refine ⟨?_, ?_, ?_⟩
            · rw [yields, yields, List.forall₂_map_left_iff, List.forall₂_map_right_iff,
                List.forall₂_same]
              exact fun v hv => ih (Env.le_bind h body (.cons (fun _ h => h) hle)) hte hte'
                (hP.valid_yield hv)
            · exact listHasType_map (hs.yieldedValues ▸ hs.yieldTypes) fun v hv =>
                value_hasType hP n hte (hP.valid_yield hv)
            · exact listHasType_map (hs.yieldedValues ▸ hs.yieldTypes) fun v hv =>
                value_hasType hP n hte' (hP.valid_yield hv)
        obtain ⟨results', hres', hle, -, -⟩ := hsim
        rw [hres']
        obtain ⟨a, ha, rfl⟩ : ∃ a, results[idx]? = some a ∧ a = some x := by
          simpa [Option.join_eq_some_iff] using hx
        have hlt := (List.getElem?_eq_some_iff.mp ha).1
        have hlt' : idx < results'.length := hle.length_eq ▸ hlt
        have hkn := (List.forall₂_iff_get.mp hle).2 idx hlt hlt' x (by
          simpa using (List.getElem?_eq_some_iff.mp ha).2)
        simpa [List.getElem?_eq_getElem hlt'] using hkn
      · intro x hx; simp at hx

/-! ## Independence -/

/-- **A value depends only on the arguments it depends on.** -/
theorem value_congr (n : ℕ) {env env' : Env Blk} {v : Value Op Blk}
    (h : ∀ b, P.Depends b v → ∀ i, env b i = env' b i) : value P n env v = value P n env' v := by
  induction n generalizing env env' v with
  | zero =>
    cases v with
    | arg b i => exact h b (.arg i) i
    | result op i => rfl
  | succ n ih =>
    cases v with
    | arg b i => exact h b (.arg i) i
    | result op idx =>
      rw [value, value]
      refine opResult_congr (fun v hv => ih fun b hb => h b (.operand idx hv hb)) ?_
      intro hl c hc args v hv
      refine ih fun b hb i => ?_
      rw [Env.bind, Env.bind]
      split
      · rfl
      · next hbc => exact h b (.body idx hl hc hbc hv hb) i

end

theorem Program.parentRegion_of_loopBody {op : Op} {b : Blk} (h : P.loopBody op = some b) :
    P.parentRegion b = ⟨op, 0⟩ :=
  P.region_of_mem op ([b], 0) (by simp [Program.loopBody_eq_some.mp h]) b (by simp)

/-- The body of a loop determines the loop. -/
theorem Program.loopBody_inj {op op' : Op} {b : Blk} (h : P.loopBody op = some b)
    (h' : P.loopBody op' = some b) : op = op' := by
  have := (parentRegion_of_loopBody h).symm.trans (parentRegion_of_loopBody h')
  simpa using this

/-- The body of a loop is the only block of its region. -/
theorem Program.eq_of_parentRegion {op : Op} {b c : Blk} (h : P.loopBody op = some b)
    (hc : P.parentRegion c = P.parentRegion b) : c = b := by
  have hmem := P.mem_region c
  rw [hc, parentRegion_of_loopBody h, loopBody_eq_some.mp h] at hmem
  simpa using hmem

/-- **A value depends only on arguments of blocks around its definition.** -/
theorem Program.Depends.inside (hP : P.Verified) {b : Blk} {v : Value Op Blk}
    (h : P.Depends b v) : ∃ r, P.valueRegion v = some r ∧ P.Inside (P.parentRegion b) r := by
  induction h with
  | arg i => exact ⟨_, rfl, .refl⟩
  | @operand op v i hv _ ih =>
    obtain ⟨r, hr, hin⟩ := ih
    obtain ⟨r₁, r₂, h₁, h₂, hin'⟩ := hP.visible op v hv
    obtain rfl : r = r₂ := by simpa [hr] using h₂
    exact ⟨r₁, h₁, hin.trans hin'⟩
  | @body op c v i _ hc hbc hv _ ih =>
    obtain ⟨r, hr, hin⟩ := ih
    -- The terminator of the body is in the body.
    rw [Program.yieldedValues] at hv
    split at hv
    · next y hy =>
      obtain ⟨r₁, r₂, h₁, h₂, hin'⟩ := hP.visible y v hv
      obtain rfl : r = r₂ := by simpa [hr] using h₂
      have hblock := (P.mem_ops_iff y c).mp (List.mem_of_getLast? hy)
      have hreg : r₁ = P.parentRegion c := by simpa [Program.opRegion, hblock] using h₁.symm
      have hb := hin.trans hin'
      generalize hrb : P.parentRegion b = rb at hb
      cases hb with
      | refl => exact absurd (eq_of_parentRegion hc (hrb.trans hreg)) hbc
      | up hup hb =>
        rw [hreg, parentRegion_of_loopBody hc] at hup
        exact ⟨_, hup, hb⟩
    · simp at hv

/-! ## Commutativity -/

theorem APInt.add_comm {a b : APInt} (h : a.width = b.width) : a.add b = b.add a := by
  obtain ⟨w, x⟩ := a
  obtain ⟨w', y⟩ := b
  obtain rfl : w = w' := h
  simp [APInt.add, BitVec.add_comm]

theorem APInt.mul_comm {a b : APInt} (h : a.width = b.width) : a.mul b = b.mul a := by
  obtain ⟨w, x⟩ := a
  obtain ⟨w', y⟩ := b
  obtain rfl : w = w' := h
  simp [APInt.mul, BitVec.mul_comm]

theorem HasType.width_eq {t : Ty} {a b : APInt} (ha : HasType (some t) (some a))
    (hb : HasType (some t) (some b)) : a.width = b.width := by
  simpa using (ha a rfl).symm.trans (hb b rfl)

theorem both_comm {fn : APInt → APInt → APInt} (hfn : ∀ a b, a.width = b.width → fn a b = fn b a)
    {t : Ty} {a b : Option APInt} (ha : HasType (some t) a) (hb : HasType (some t) b) :
    both fn a b = both fn b a := by
  cases a <;> cases b <;> simp only [both]
  rw [hfn _ _ (ha.width_eq hb)]

theorem product_comm {t : Ty} {a b : Option APInt} (ha : HasType (some t) a)
    (hb : HasType (some t) b) : product a b = product b a := by
  rw [product, product]
  by_cases hza : isZero a = true <;> by_cases hzb : isZero b = true
  · rw [if_pos hza, if_pos hzb]
    cases a with
    | none => simp [isZero] at hza
    | some a =>
      cases b with
      | none => simp [isZero] at hzb
      | some b => rw [eq_of_isZero ha hb hza hzb]
  · rw [if_pos hza, if_neg hzb, if_pos hza]
  · rw [if_neg hza, if_pos hzb, if_pos hzb]
  · rw [if_neg hza, if_neg hzb, if_neg hzb, if_neg hza]
    exact both_comm (fun _ _ => APInt.mul_comm) ha hb

/-! ## The `arith` operations -/

/-- What an `arith` operation computes from its operands. -/
def Reference.ofArith : OpName → Option APInt → Option APInt → Option APInt
  | .addi => both APInt.add
  | .subi => both APInt.sub
  | .muli => product
  | _ => fun _ _ => none

/-- Whether an operation is an `arith` operation is in its name. -/
theorem Program.isArith_congr {op other : Op} (h : (P.kind op).name = (P.kind other).name) :
    P.isArith op = P.isArith other := by
  cases hk : P.kind op <;> cases hk' : P.kind other <;> simp_all [isArith, OpKind.name]

variable [DecidableEq Blk]

theorem Reference.opResult_arith {V : Env Blk → Value Op Blk → Option APInt} {env : Env Blk}
    {op : Op} {l r : Value Op Blk} {idx : ℕ} (ho : P.operands op = [l, r])
    (h : P.isArith op = true) :
    opResult P V env op idx = ofArith (P.kind op).name (V env l) (V env r) := by
  rw [opResult, ho]
  cases hk : P.kind op <;> simp_all [Program.isArith, OpKind.name, ofArith]

theorem Reference.ofArith_comm {name : OpName} (h : name.isCommutative = true) {t : Ty}
    {a b : Option APInt} (ha : HasType (some t) a) (hb : HasType (some t) b) :
    ofArith name a b = ofArith name b a := by
  cases name with
  | addi => exact both_comm (fun _ _ => APInt.add_comm) ha hb
  | muli => exact product_comm ha hb
  | subi => simp [OpName.isCommutative] at h
  | _ => rfl

/-! ## The reference evaluation -/

variable [Fintype Op] [DecidableEq Op]

theorem reference_hasType (hP : P.Verified) {env : Env Blk} (henv : env.WellTyped P)
    {v : Value Op Blk} (hv : P.Valid v) : HasType (P.valueType v) (reference P env v) :=
  value_hasType hP _ henv hv

theorem reference_mono (hP : P.Verified) {env env' : Env Blk} (h : env.le env')
    (ht : env.WellTyped P) (ht' : env'.WellTyped P) {v : Value Op Blk} (hv : P.Valid v) :
    Known.le (reference P env v) (reference P env' v) :=
  value_mono hP _ h ht ht' hv

theorem reference_congr {env env' : Env Blk} {v : Value Op Blk}
    (h : ∀ b, P.Depends b v → ∀ i, env b i = env' b i) :
    reference P env v = reference P env' v :=
  value_congr _ h

end

end MlirInterpreter
