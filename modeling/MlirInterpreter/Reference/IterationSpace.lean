import MlirInterpreter.Dialects.SCF
import MlirInterpreter.Engine.Scripted
import Mathlib.Algebra.Order.Floor.Semiring
import Mathlib.Data.Rat.Floor

/-!
# The iteration space of a loop

`ForOpEval::evaluate` steps a bit vector of fixed width through the iteration space and tests for
its end and for overflow.  Under a script, which makes the body a function of the induction value
and the carried answers, it runs the body exactly for the integers `lb + k * step` with `k < ⌈(ub -
lb) / step⌉` (`evaluate_iterationSpace`).

`integer` is the integer a bit vector stands for, signed or unsigned, and `Fits` says which integers
have one.
-/

set_option autoImplicit false

namespace MlirInterpreter

namespace SCF

/-! ## Integers of a fixed width -/

/-- The integer a bit vector stands for. -/
def integer (isUnsigned : Bool) {w : ℕ} (x : BitVec w) : ℤ :=
  if isUnsigned then x.toNat else x.toInt

/-- An integer can be represented. -/
def Fits (isUnsigned : Bool) (w : ℕ) (z : ℤ) : Prop :=
  if isUnsigned then 0 ≤ z ∧ z < 2 ^ w else -2 ^ w ≤ 2 * z ∧ 2 * z < 2 ^ w

instance (isUnsigned : Bool) (w : ℕ) (z : ℤ) : Decidable (Fits isUnsigned w z) := by
  unfold Fits
  split <;> infer_instance

variable {isUnsigned : Bool} {w : ℕ}

theorem fits_integer (x : BitVec w) : Fits isUnsigned w (integer isUnsigned x) := by
  cases isUnsigned with
  | true =>
    have h := x.isLt
    refine ⟨Int.natCast_nonneg _, ?_⟩
    simp only [integer, if_true]
    exact_mod_cast h
  | false => exact ⟨BitVec.le_two_mul_toInt, BitVec.two_mul_toInt_lt⟩

/-- What can be represented is represented. -/
theorem integer_ofInt {z : ℤ} (h : Fits isUnsigned w z) :
    integer isUnsigned (BitVec.ofInt w z) = z := by
  cases isUnsigned with
  | true =>
    obtain ⟨h₁, h₂⟩ : 0 ≤ z ∧ z < 2 ^ w := h
    simp only [integer, if_true, BitVec.toNat_ofInt]
    rw [Int.emod_eq_of_lt h₁ (by exact_mod_cast h₂), Int.toNat_of_nonneg h₁]
  | false =>
    obtain ⟨h₁, h₂⟩ : -2 ^ w ≤ 2 * z ∧ 2 * z < 2 ^ w := h
    simp only [integer, Bool.false_eq_true, if_false, BitVec.toInt_ofInt]
    refine Int.bmod_eq_of_le_mul_two ?_ ?_
    · push_cast
      omega
    · push_cast
      omega

theorem ofInt_integer (x : BitVec w) : BitVec.ofInt w (integer isUnsigned x) = x := by
  cases isUnsigned with
  | true => simp [integer]
  | false => simp [integer]

theorem less_eq (x y : BitVec w) :
    less isUnsigned ⟨w, x⟩ ⟨w, y⟩ = decide (integer isUnsigned x < integer isUnsigned y) := by
  cases isUnsigned with
  | true => simp [less, integer, APInt.ult]
  | false => simp [less, integer, APInt.slt]

theorem badStep_eq (x : BitVec w) :
    badStep isUnsigned ⟨w, x⟩ = decide (integer isUnsigned x ≤ 0) := by
  cases isUnsigned with
  | true => simp [badStep, integer, APInt.isZero]
  | false => simp [badStep, integer, APInt.isStrictlyPositive, ← decide_not]

/-- The sum, as a bit vector. -/
theorem addOv_fst (z : ℤ) (d : BitVec w) : (addOv isUnsigned ⟨w, .ofInt w z⟩ ⟨w, d⟩).1 =
    ⟨w, .ofInt w (z + integer isUnsigned d)⟩ := by
  have hadd : (addOv isUnsigned ⟨w, .ofInt w z⟩ ⟨w, d⟩).1 = ⟨w, BitVec.ofInt w z + d⟩ := by
    cases isUnsigned <;> simp [addOv, APInt.uaddOv, APInt.saddOv, APInt.add]
  rw [hadd, BitVec.ofInt_add, ofInt_integer]

/-- The sum overflows exactly if it cannot be represented. -/
theorem addOv_snd {z : ℤ} (h : Fits isUnsigned w z) (d : BitVec w) :
    (addOv isUnsigned ⟨w, .ofInt w z⟩ ⟨w, d⟩).2 =
      decide (¬ Fits isUnsigned w (z + integer isUnsigned d)) := by
  have hz := integer_ofInt h
  cases isUnsigned with
  | true =>
    have hsum : (addOv true ⟨w, .ofInt w z⟩ ⟨w, d⟩).2 =
        decide (2 ^ w ≤ (BitVec.ofInt w z).toNat + d.toNat) := rfl
    rw [hsum]
    simp only [integer, if_true] at hz ⊢
    simp only [Fits, if_true]
    refine decide_eq_decide.mpr ?_
    have hpow : ((2 ^ w : ℕ) : ℤ) = 2 ^ w := by push_cast; rfl
    omega
  | false =>
    have hsum : (addOv false ⟨w, .ofInt w z⟩ ⟨w, d⟩).2 =
        decide ((BitVec.ofInt w z).toInt + d.toInt ≠
          (APInt.add ⟨w, .ofInt w z⟩ ⟨w, d⟩).bits.toInt) := rfl
    have hbits : (APInt.add ⟨w, .ofInt w z⟩ ⟨w, d⟩).bits.toInt =
        integer false (BitVec.ofInt w (z + integer false d)) := by
      rw [BitVec.ofInt_add, ofInt_integer]
      simp [APInt.add, integer]
    rw [hsum, hbits]
    change (BitVec.ofInt w z).toInt = z at hz
    refine decide_eq_decide.mpr (not_congr ?_)
    rw [hz]
    change z + integer false d = _ ↔ _
    constructor
    · intro heq
      rw [heq]
      exact fits_integer _
    · intro hfits
      rw [integer_ofInt hfits]

/-- What lies between representable integers is representable. -/
theorem Fits.between {a b z : ℤ} (ha : Fits isUnsigned w a) (hb : Fits isUnsigned w b) (haz : a ≤ z)
    (hzb : z ≤ b) : Fits isUnsigned w z := by
  cases isUnsigned with
  | true => exact ⟨ha.1.trans haz, hzb.trans_lt hb.2⟩
  | false =>
    obtain ⟨ha, -⟩ : -2 ^ w ≤ 2 * a ∧ 2 * a < 2 ^ w := ha
    obtain ⟨-, hb⟩ : -2 ^ w ≤ 2 * b ∧ 2 * b < 2 ^ w := hb
    exact ⟨by omega, by omega⟩

/-- Representable integers are less than `2 ^ w` apart. -/
theorem Fits.sub_lt {a b : ℤ} (ha : Fits isUnsigned w a) (hb : Fits isUnsigned w b) :
    b - a < 2 ^ w := by
  cases isUnsigned with
  | true =>
    have := ha.1
    have := hb.2
    omega
  | false =>
    obtain ⟨ha, -⟩ : -2 ^ w ≤ 2 * a ∧ 2 * a < 2 ^ w := ha
    obtain ⟨-, hb⟩ : -2 ^ w ≤ 2 * b ∧ 2 * b < 2 ^ w := hb
    omega

/-! ## The iterations -/

/-- The number of iterations. -/
def tripCount (lb ub step : ℤ) : ℕ := ⌈((ub - lb : ℤ) : ℚ) / (step : ℚ)⌉₊

theorem lt_tripCount {lb ub step : ℤ} (hstep : 0 < step) (k : ℕ) :
    k < tripCount lb ub step ↔ lb + k * step < ub := by
  have hpos : (0 : ℚ) < (step : ℚ) := by exact_mod_cast hstep
  rw [tripCount, Nat.lt_ceil, lt_div_iff₀ hpos]
  constructor
  · intro h
    have h' : (k : ℤ) * step < ub - lb := by exact_mod_cast h
    omega
  · intro h
    have h' : (k : ℤ) * step < ub - lb := by omega
    exact_mod_cast h'

/-- There are fewer iterations than bit vectors. -/
theorem tripCount_lt {lb ub step : ℤ} (hstep : 0 < step) (hlb : Fits isUnsigned w lb)
    (hub : Fits isUnsigned w ub) : tripCount lb ub step < 2 ^ w := by
  by_contra hle
  have hlt : lb + ((2 ^ w - 1 : ℕ) : ℤ) * step < ub := (lt_tripCount hstep _).mp (by
    have := Nat.two_pow_pos w
    omega)
  have hsub := Fits.sub_lt hlb hub
  have hpos : 1 ≤ 2 ^ w := Nat.one_le_two_pow
  have hcast : ((2 ^ w - 1 : ℕ) : ℤ) = 2 ^ w - 1 := by
    rw [Nat.cast_sub hpos]
    push_cast
    rfl
  rw [hcast] at hlt
  nlinarith

/-- The answers of the yields, or the first signal among them. -/
def collect : List (Answer APInt) → Except Signal (List (Answer APInt))
  | [] => .ok []
  | .signal st :: _ => .error st
  | .completed x :: answers =>
    match collect answers with
    | .error st => .error st
    | .ok rest => .ok (.completed x :: rest)

/-- The carried answers before iteration `k`, or the first signal before it. -/
def carriedBefore (body : APInt → List (Answer APInt) → List (Answer APInt)) (w : ℕ) (lb step : ℤ)
    (inits : List (Answer APInt)) : ℕ → Except Signal (List (Answer APInt))
  | 0 => .ok inits
  | k + 1 =>
    match carriedBefore body w lb step inits k with
    | .error st => .error st
    | .ok carried => collect (body ⟨w, .ofInt w (lb + k * step)⟩ carried)

/-! ## Running the loop -/

section Loop

variable {Op Blk : Type}

/-- What a loop does itself: it pays for an iteration and binds the arguments of its body. -/
def isLoopEvent : ScopeEvent Op Blk APInt → Bool
  | .charge => true
  | .bind _ _ => true
  | .unbind _ => true
  | _ => false

/-- What the loops did so far. -/
def loopEvents (s : ScriptState Op Blk APInt) : List (ScopeEvent Op Blk APInt) :=
  s.events.filter isLoopEvent

theorem loopEvents_record {s : ScriptState Op Blk APInt} {e : ScopeEvent Op Blk APInt}
    (he : isLoopEvent e = false) : loopEvents (s.record e) = loopEvents s := by
  simp [loopEvents, ScriptState.record, he]

/-- One iteration, on the induction value `iv` and the carried answers, unless a signal came
first. -/
def iteration (body : Blk) (iv : EvalValue APInt) :
    Except Signal (List (Answer APInt)) → List (ScopeEvent Op Blk APInt)
  | .ok carried => [.charge, .bind body (.known iv :: carried), .unbind body]
  | .error _ => []

/-- The `m` iterations from number `k` on, on the induction values `ivs`. -/
def iterations (body : Blk) (ivs : ℕ → EvalValue APInt)
    (carried : ℕ → Except Signal (List (Answer APInt))) (k m : ℕ) :
    List (ScopeEvent Op Blk APInt) :=
  (List.range' k m).flatMap fun j => iteration body (ivs j) (carried j)

theorem iterations_succ (body : Blk) (iv : EvalValue APInt) (ivs : ℕ → EvalValue APInt)
    (carried : ℕ → Except Signal (List (Answer APInt))) (k m : ℕ) :
    (iterations body (Function.update ivs k iv) carried k (m + 1) :
      List (ScopeEvent Op Blk APInt)) =
      iteration body iv (carried k) ++ iterations body ivs carried (k + 1) m := by
  rw [iterations, List.range'_succ, List.flatMap_cons, Function.update_self]
  refine congrArg _ (List.flatMap_congr fun j hj => ?_)
  rw [Function.update_of_ne (by have := (List.mem_range'_1.mp hj).1; omega)]

variable {P : Program Op Blk} {script : Script Op Blk APInt}

/-- What a loop returns whose induction value ends up at `last`. -/
def loopResults (P : Program Op Blk) (op : Op) (isUnsigned : Bool) (w : ℕ) (last : ℤ) :
    Except Signal (List (Answer APInt)) → List (Answer APInt)
  | .error st => everyResult P op (.signal st)
  | .ok carried => if Fits isUnsigned w last then carried else everyResult P op .unknown

theorem wp_script_queryYields (values : List (Value Op Blk)) (s : ScriptState Op Blk APInt) :
    script.logic.wp (queryYields values) s fun yielded t =>
      yielded = collect (values.map (script.answer s.bindings)) ∧ t.bindings = s.bindings ∧
        loopEvents t = loopEvents s := by
  induction values generalizing s with
  | nil => exact script.logic.wp_pure ⟨rfl, rfl, rfl⟩
  | cons v values ih =>
    rw [queryYields]
    refine script.wp_query s ?_
    rw [List.map_cons]
    cases hv : script.answer s.bindings v with
    | signal st => exact script.logic.wp_pure ⟨rfl, rfl, loopEvents_record rfl⟩
    | completed slot =>
      refine script.logic.wp_bind (script.logic.wp_mono (ih (s.record (.query v))) ?_)
      rintro yielded t ⟨hyielded, hbindings, hevents⟩
      have hcollect : collect (values.map (script.answer s.bindings)) = yielded := hyielded.symm
      rw [collect, hcollect]
      rw [loopEvents_record rfl] at hevents
      cases yielded with
      | error st => exact script.logic.wp_pure ⟨rfl, hbindings, hevents⟩
      | ok rest => exact script.logic.wp_pure ⟨rfl, hbindings, hevents⟩

/-- What an iteration does itself. -/
theorem loopEvents_iteration {t u v : ScriptState Op Blk APInt} {b : Blk} {payload : APInt}
    {args : List (Answer APInt)}
    {bindings : List (Blk × List (Answer APInt))}
    (hv : loopEvents v = loopEvents ⟨bindings,
      ((t.record .charge).record (.allocate payload)).events ++ [.bind b args]⟩)
    (hu : u.events = v.events ++ [.unbind b]) :
    loopEvents u = loopEvents t ++ [.charge, .bind b args, .unbind b] := by
  have hfilter : loopEvents u = loopEvents v ++ [.unbind b] := by
    rw [loopEvents, hu, List.filter_append]
    rfl
  rw [hfilter, hv]
  simp only [loopEvents, ScriptState.record, List.filter_append, List.append_assoc]
  rfl

/-- After a signal nothing runs. -/
theorem carriedBefore_signal {body : APInt → List (Answer APInt) → List (Answer APInt)} {w : ℕ}
    {lb step : ℤ} {inits : List (Answer APInt)} {st : Signal} {k : ℕ}
    (h : carriedBefore body w lb step inits k = .error st) (j : ℕ) :
    carriedBefore body w lb step inits (k + j) = .error st := by
  induction j with
  | zero => exact h
  | succ j ih => rw [← Nat.add_assoc, carriedBefore, ih]

variable {op : Op} {b : Blk} {isUnsigned : Bool} {w : ℕ} {ub step : BitVec w} {lb : ℤ}
  {inits : List (Answer APInt)} {body : APInt → List (Answer APInt) → List (Answer APInt)}
  {bindings : List (Blk × List (Answer APInt))}

/-- The rest of the loop, `m` iterations before its end. -/
theorem wp_script_iterate
    (hbody : ∀ iv carried, (P.yieldedValues b).map
      (script.answer ((b, .known iv :: carried) :: bindings)) = body iv.payload carried)
    (hstep : 0 < integer isUnsigned step) (hlb : Fits isUnsigned w lb) {m k fuel : ℕ}
    (hm : k + m = tripCount lb (integer isUnsigned ub) (integer isUnsigned step)) (hfuel : m < fuel)
    (hfits : Fits isUnsigned w (lb + k * integer isUnsigned step)) {carried : List (Answer APInt)}
    (hcarried : carriedBefore body w lb (integer isUnsigned step) inits k = .ok carried)
    {t : ScriptState Op Blk APInt} (ht : t.bindings = bindings) :
    script.logic.wp (iterate P op b isUnsigned ⟨w, ub⟩ ⟨w, step⟩ fuel
      ⟨w, .ofInt w (lb + k * integer isUnsigned step)⟩ carried) t fun results u =>
      results = loopResults P op isUnsigned w (lb + (k + m : ℕ) * integer isUnsigned step)
        (carriedBefore body w lb (integer isUnsigned step) inits (k + m)) ∧
      u.bindings = bindings ∧ ∃ ivs : ℕ → EvalValue APInt,
        (∀ j, k ≤ j → j < k + m →
          (ivs j).payload = ⟨w, .ofInt w (lb + j * integer isUnsigned step)⟩) ∧
        loopEvents u = loopEvents t ++ iterations b ivs
          (carriedBefore body w lb (integer isUnsigned step) inits) k m := by
  induction m generalizing k fuel carried t with
  | zero =>
    obtain ⟨fuel, rfl⟩ : ∃ f, fuel = f + 1 := ⟨fuel - 1, by omega⟩
    have hend : ¬ lb + k * integer isUnsigned step < integer isUnsigned ub := by
      rw [← lt_tripCount hstep]
      omega
    rw [iterate, less_eq, integer_ofInt hfits, if_neg (by simpa using hend)]
    refine script.logic.wp_pure
      ⟨?_, ht, fun _ => ⟨0, .cache, ⟨w, ub⟩⟩, by omega, by simp [iterations]⟩
    rw [Nat.add_zero, hcarried, loopResults, if_pos hfits]
  | succ m ih =>
    obtain ⟨fuel, rfl⟩ : ∃ f, fuel = f + 1 := ⟨fuel - 1, by omega⟩
    have hlt : lb + k * integer isUnsigned step < integer isUnsigned ub := by
      rw [← lt_tripCount hstep]
      omega
    rw [iterate, less_eq, integer_ofInt hfits, if_pos (by simpa using hlt)]
    refine script.wp_declareCost t ?_
    rw [if_neg (by simp)]
    refine script.wp_allocate _ (script.wp_withBinding _ ?_)
    refine script.logic.wp_mono (wp_script_queryYields _ _) ?_
    rintro yielded v ⟨hyielded, hbindings, hevents⟩
    subst ht
    -- The handle of the induction value, and what the loop has done up to now.
    let d := integer isUnsigned step
    let iv : EvalValue APInt :=
      ⟨script.address (t.record .charge).events, .query 0, ⟨w, .ofInt w (lb + k * d)⟩⟩
    have hnext : carriedBefore body w lb d inits (k + 1) = yielded := by
      rw [carriedBefore, hcarried]
      exact (congrArg collect (hbody iv carried)).symm.trans hyielded.symm
    have hdone : ∀ u : ScriptState Op Blk APInt, u.events = v.events ++ [.unbind b] →
        loopEvents u = loopEvents t ++ iteration b iv (carriedBefore body w lb d inits k) := by
      intro u hu
      rw [hcarried]
      exact loopEvents_iteration hevents hu
    have htail : v.bindings.tail = t.bindings := by rw [hbindings]; rfl
    have payload : ∀ ivs : ℕ → EvalValue APInt,
        (∀ j, k + 1 ≤ j → j < k + 1 + m → (ivs j).payload = ⟨w, .ofInt w (lb + j * d)⟩) →
        ∀ j, k ≤ j → j < k + (m + 1) →
          (Function.update ivs k iv j).payload = ⟨w, .ofInt w (lb + j * d)⟩ := by
      intro ivs hivs j hkj hj
      by_cases hjk : j = k
      · rw [hjk, Function.update_self]
      · rw [Function.update_of_ne hjk]
        exact hivs j (by omega) (by omega)
    cases yielded with
    | error st =>
      have hsignal := carriedBefore_signal hnext
      refine script.logic.wp_pure ⟨?_, htail, Function.update (fun j => ⟨0, .cache,
        ⟨w, .ofInt w (lb + j * d)⟩⟩) k iv, payload _ fun j _ _ => rfl, ?_⟩
      · rw [show k + (m + 1) = k + 1 + m by omega, hsignal m]
        rfl
      · rw [iterations_succ, ← List.append_assoc, ← hdone ⟨v.bindings.tail, _⟩ rfl, iterations,
          List.flatMap_eq_nil_iff.mpr, List.append_nil]
        intro j hj
        obtain ⟨i, rfl⟩ := Nat.exists_eq_add_of_le (List.mem_range'_1.mp hj).1
        rw [hsignal i]
        rfl
    | ok yielded =>
      have hadd : addOv isUnsigned ⟨w, .ofInt w (lb + k * d)⟩ ⟨w, step⟩ =
          (⟨w, .ofInt w (lb + (k + 1 : ℕ) * d)⟩,
            decide (¬ Fits isUnsigned w (lb + (k + 1 : ℕ) * d))) := by
        have hsum : lb + (k + 1 : ℕ) * d = lb + k * d + d := by
          push_cast
          ring
        rw [hsum]
        exact Prod.ext (addOv_fst _ _) (addOv_snd hfits _)
      simp only [d] at hadd hnext
      simp only [hadd, decide_eq_true_eq]
      split
      · next hover =>
        -- Only the value past the last iteration can overflow.
        obtain rfl : m = 0 := by
          by_contra hm'
          refine hover (Fits.between hlb (fits_integer ub) ?_ (le_of_lt ?_))
          · have : 0 ≤ ((k + 1 : ℕ) : ℤ) * integer isUnsigned step := by positivity
            omega
          · rw [← lt_tripCount hstep]
            omega
        refine script.logic.wp_pure ⟨?_, htail, _, payload (fun _ => iv) (by omega), ?_⟩
        · rw [Nat.add_zero, hnext, loopResults, if_neg hover]
        · rw [iterations_succ, hdone ⟨v.bindings.tail, _⟩ rfl]
          simp [iterations, d]
      · next hover =>
        rw [not_not] at hover
        refine script.logic.wp_mono (ih (by omega) (by omega) hover hnext htail) ?_
        rintro results u ⟨hresults, hu, ivs, hivs, hevents⟩
        refine ⟨?_, hu, _, payload ivs hivs, ?_⟩
        · rw [hresults, show k + 1 + m = k + (m + 1) by omega]
        · rw [hevents, iterations_succ, hdone ⟨v.bindings.tail, _⟩ rfl, List.append_assoc]

/-- Known values are queried one after the other. -/
theorem wp_script_queryKnown {values : List (Value Op Blk)} {s : ScriptState Op Blk APInt}
    (h : ∀ v ∈ values, (script.answer s.bindings v).isKnown = true) :
    script.logic.wp (queryKnown values) s fun result t =>
      ∃ known, result = .ok known ∧ known.map .known = values.map (script.answer s.bindings) ∧
        t.bindings = s.bindings ∧ loopEvents t = loopEvents s := by
  induction values generalizing s with
  | nil => exact script.logic.wp_pure ⟨[], rfl, rfl, rfl, rfl⟩
  | cons v values ih =>
    obtain ⟨x, hx⟩ := Answer.isKnown_iff.mp (h v (by simp))
    rw [queryKnown]
    refine script.wp_query s ?_
    rw [hx]
    refine script.logic.wp_bind (script.logic.wp_mono (ih fun w hw => h w (by simp [hw])) ?_)
    rintro result t ⟨known, rfl, hknown, hbindings, hevents⟩
    refine script.logic.wp_pure
      ⟨x :: known, rfl, ?_, hbindings, hevents.trans (loopEvents_record rfl)⟩
    rw [List.map_cons, List.map_cons, hx, hknown]
    rfl

/-- The three control operands, and then the initial values. -/
theorem wp_script_evaluateLoop {lower upper stride : Value Op Blk} {initial : List (Value Op Blk)}
    {s : ScriptState Op Blk APInt} {x y z : APInt}
    (hx : (script.answer s.bindings lower).payload? = some x)
    (hy : (script.answer s.bindings upper).payload? = some y)
    (hz : (script.answer s.bindings stride).payload? = some z)
    (hinitial : ∀ v ∈ initial, (script.answer s.bindings v).isKnown = true)
    {Q : List (Answer APInt) → ScriptState Op Blk APInt → Prop}
    (hbad : ∀ t, loopEvents t = loopEvents s → badStep isUnsigned z = true →
      Q (everyResult P op .unknown) t)
    (hgood : ∀ t : ScriptState Op Blk APInt, t.bindings = s.bindings → loopEvents t = loopEvents s →
      badStep isUnsigned z = false → script.logic.wp (iterate P op b isUnsigned y z (2 ^ x.width) x
        (initial.map (script.answer s.bindings))) t fun results u => Q results (u.record .thaw)) :
    script.logic.wp (evaluateLoop P op b isUnsigned lower upper stride initial) s Q := by
  have known_of : ∀ {v : Value Op Blk} {a : APInt},
      (script.answer s.bindings v).payload? = some a →
        (script.answer s.bindings v).isKnown = true := by
    intro v a ha
    obtain ⟨c, hc, -⟩ := Option.map_eq_some_iff.mp ha
    exact Answer.isKnown_iff.mpr ⟨c, Answer.value?_eq_some_iff.mp hc⟩
  have hcontrol : ∀ v ∈ [lower, upper, stride], (script.answer s.bindings v).isKnown = true := by
    simp [known_of hx, known_of hy, known_of hz]
  rw [evaluateLoop]
  refine script.logic.wp_bind (script.logic.wp_mono (wp_script_queryKnown hcontrol) ?_)
  rintro result t ⟨known, rfl, hknown, hbindings, hevents⟩
  rcases known with _ | ⟨l, _ | ⟨u, _ | ⟨d, _ | ⟨_, _⟩⟩⟩⟩
  all_goals simp only [List.map_cons, List.map_nil, List.cons.injEq, reduceCtorEq, and_false,
    and_true] at hknown
  obtain ⟨hl, hu, hd⟩ := hknown
  rw [← hl] at hx
  rw [← hu] at hy
  rw [← hd] at hz
  obtain rfl := Option.some.inj hx
  obtain rfl := Option.some.inj hy
  obtain rfl := Option.some.inj hz
  refine script.logic.wp_bind (script.logic.wp_mono
    (wp_script_queryKnown fun v hv => hbindings ▸ hinitial v hv) ?_)
  rintro result t' ⟨known, rfl, hknown, hbindings', hevents'⟩
  simp only
  split
  · next hstep => exact script.logic.wp_pure (hbad t' (hevents'.trans hevents) hstep)
  · next hstep =>
    refine script.wp_withFreeze _ ?_
    rw [hknown, hbindings]
    exact hgood (t'.record .freeze) (hbindings'.trans hbindings)
      ((loopEvents_record rfl).trans (hevents'.trans hevents)) (Bool.eq_false_iff.mpr hstep)

/-- **A loop runs exactly its iteration space.**  Let a script answer the bounds and the step with
integers of width `w` and the initial values with known ones, and let the body be a function of the
induction value and the carried answers.  The results are unknown if the step is not positive, and
the initial values if there is nothing to iterate over.  Otherwise, with `n = ⌈(ub - lb) / step⌉`,
the loop binds its body for `k = 0, …, n - 1`, up to the first signal, to `lb + k * step` and what
the iteration before has yielded, pays one step for each iteration, and returns the first signal, or
else what the last iteration has yielded if `lb + n * step` fits, or else unknown results. -/
theorem evaluate_iterationSpace {op : Op} {b : Blk} {lower upper stride : Value Op Blk}
    {initial yielded : List (Value Op Blk)} {t : Ty}
    (hshape : P.LoopShape op lower upper stride initial b yielded t) (isUnsigned : Bool)
    (s : ScriptState Op Blk APInt) {w : ℕ} {lb ub step : BitVec w}
    (hlb : (script.answer s.bindings lower).payload? = some ⟨w, lb⟩)
    (hub : (script.answer s.bindings upper).payload? = some ⟨w, ub⟩)
    (hstep : (script.answer s.bindings stride).payload? = some ⟨w, step⟩)
    (hinitial : ∀ v ∈ initial, (script.answer s.bindings v).isKnown = true)
    {body : APInt → List (Answer APInt) → List (Answer APInt)}
    (hbody : ∀ iv carried, (P.yieldedValues b).map
      (script.answer ((b, .known iv :: carried) :: s.bindings)) = body iv.payload carried) :
    (integer isUnsigned step ≤ 0 →
      (script.run (evaluate P op isUnsigned) s).1 = everyResult P op .unknown ∧
        loopEvents (script.run (evaluate P op isUnsigned) s).2 = loopEvents s) ∧
    (0 < integer isUnsigned step → integer isUnsigned ub ≤ integer isUnsigned lb →
      (script.run (evaluate P op isUnsigned) s).1 = initial.map (script.answer s.bindings) ∧
        loopEvents (script.run (evaluate P op isUnsigned) s).2 = loopEvents s) ∧
    (0 < integer isUnsigned step → ∀ n,
      n = tripCount (integer isUnsigned lb) (integer isUnsigned ub)
        (integer isUnsigned step) → ∀ carried,
          carried = carriedBefore body w (integer isUnsigned lb)
        (integer isUnsigned step) (initial.map (script.answer s.bindings)) →
      (script.run (evaluate P op isUnsigned) s).1 = loopResults P op isUnsigned w
          (integer isUnsigned lb + n * integer isUnsigned step) (carried n) ∧
        ∃ ivs : ℕ → EvalValue APInt,
          (∀ k < n, ∃ x : BitVec w, (ivs k).payload = ⟨w, x⟩ ∧
            integer isUnsigned x = integer isUnsigned lb + k * integer isUnsigned step) ∧
          loopEvents (script.run (evaluate P op isUnsigned) s).2 =
            loopEvents s ++ iterations b ivs carried 0 n) := by
  have heval : ∀ Q : List (Answer APInt) → ScriptState Op Blk APInt → Prop,
      script.logic.wp (evaluateLoop P op b isUnsigned lower upper stride initial) s Q →
      Q (script.run (evaluate P op isUnsigned) s).1
        (script.run (evaluate P op isUnsigned) s).2 := by
    intro Q h
    have hloop : evaluate P op isUnsigned =
        (evaluateLoop P op b isUnsigned lower upper stride initial :
          ScopeM Op Blk Unit APInt _) := by
      rw [evaluate, hshape.operands]
      simp [Program.loopBody, hshape.regions]
    rw [hloop]
    exact h
  have hspace : 0 < integer isUnsigned step → ∀ n, n = tripCount (integer isUnsigned lb)
      (integer isUnsigned ub) (integer isUnsigned step) → ∀ carried, carried = carriedBefore body w
        (integer isUnsigned lb) (integer isUnsigned step) (initial.map (script.answer s.bindings)) →
      (script.run (evaluate P op isUnsigned) s).1 = loopResults P op isUnsigned w
          (integer isUnsigned lb + n * integer isUnsigned step) (carried n) ∧
        ∃ ivs : ℕ → EvalValue APInt,
          (∀ k < n, ∃ x : BitVec w, (ivs k).payload = ⟨w, x⟩ ∧
            integer isUnsigned x = integer isUnsigned lb + k * integer isUnsigned step) ∧
          loopEvents (script.run (evaluate P op isUnsigned) s).2 =
            loopEvents s ++ iterations b ivs carried 0 n := by
    rintro hpos n hn carried rfl
    refine heval (fun results u => results = loopResults P op isUnsigned w
        (integer isUnsigned lb + n * integer isUnsigned step) (carriedBefore body w
          (integer isUnsigned lb) (integer isUnsigned step)
            (initial.map (script.answer s.bindings)) n) ∧
      ∃ ivs : ℕ → EvalValue APInt,
        (∀ k < n, ∃ x : BitVec w, (ivs k).payload = ⟨w, x⟩ ∧
          integer isUnsigned x = integer isUnsigned lb + k * integer isUnsigned step) ∧
        loopEvents u = loopEvents s ++
          iterations b ivs (carriedBefore body w (integer isUnsigned lb)
          (integer isUnsigned step) (initial.map (script.answer s.bindings))) 0 n)
      (wp_script_evaluateLoop hlb hub hstep hinitial ?_ ?_)
    · intro t _ hbad
      rw [badStep_eq, decide_eq_true_eq] at hbad
      omega
    · intro t hbindings hevents _
      have hfuel : n < 2 ^ w := hn ▸ tripCount_lt hpos (fits_integer lb) (fits_integer ub)
      have hfirst : (⟨w, lb⟩ : APInt) = ⟨w, .ofInt w (integer isUnsigned lb + (0 : ℕ) *
          integer isUnsigned step)⟩ := by
        rw [Nat.cast_zero, zero_mul, add_zero, ofInt_integer]
      rw [hfirst]
      refine script.logic.wp_mono (wp_script_iterate hbody hpos (fits_integer lb) (m := n) (k := 0)
        (by omega) hfuel ?_ rfl hbindings) ?_
      · rw [Nat.cast_zero, zero_mul, add_zero]
        exact fits_integer lb
      · rintro results u ⟨hresults, -, ivs, hivs, htrace⟩
        rw [zero_add] at hresults
        refine ⟨hresults, ivs, fun k hk =>
          ⟨_, hivs k (Nat.zero_le k) (by omega), integer_ofInt ?_⟩, ?_⟩
        · refine Fits.between (fits_integer lb) (fits_integer ub) ?_ (le_of_lt ?_)
          · have : 0 ≤ (k : ℤ) * integer isUnsigned step := by positivity
            omega
          · rw [← lt_tripCount hpos, ← hn]
            exact hk
        · rw [loopEvents_record rfl, htrace, hevents]
  refine ⟨fun hneg => ?_, fun hpos hle => ?_, hspace⟩
  · refine heval
      (fun results u => results = everyResult P op .unknown ∧ loopEvents u = loopEvents s)
      (wp_script_evaluateLoop hlb hub hstep hinitial (fun t ht _ => ⟨rfl, ht⟩) ?_)
    intro t _ _ hgood
    rw [badStep_eq, decide_eq_false_iff_not] at hgood
    omega
  · have hzero : 0 = tripCount (integer isUnsigned lb) (integer isUnsigned ub)
        (integer isUnsigned step) := by
      by_contra hne
      have := (lt_tripCount hpos 0).mp (Nat.pos_of_ne_zero (Ne.symm hne))
      rw [Nat.cast_zero, zero_mul, add_zero] at this
      omega
    obtain ⟨hresults, ivs, -, htrace⟩ := hspace hpos 0 hzero _ rfl
    refine ⟨?_, ?_⟩
    · rw [hresults, carriedBefore, loopResults, if_pos]
      rw [Nat.cast_zero, zero_mul, add_zero]
      exact fits_integer lb
    · rw [htrace]
      simp [iterations]

end Loop

/-- A body that yields the induction value. -/
def countBody (iv : APInt) (_ : List (Answer APInt)) : List (Answer APInt) :=
  [.known ⟨0, .query 0, iv⟩]

/-- The loop of `loopProgram` runs from 0 to 3 in steps of 1, with the body `countBody`. -/
def countScript : Script (Fin 10) (Fin 2) APInt where
  answer bindings
    | .result op _ =>
      match loopProgram.constantAttr op with
      | some (.integer x) => .known ⟨0, .cache, x⟩
      | _ => (bindings.flatMap Prod.snd).headD .unknown |>.payload?.elim .unknown
          fun iv => .known ⟨0, .query 0, iv⟩
    | .arg _ _ => .unknown
  address _ := 1

/-- There are three iterations, and the last one is on 2. -/
theorem evaluate_iterationSpace_loopProgram :
    (countScript.run (evaluate loopProgram 3 false) .empty).1 =
      [.known ⟨0, .query 0, ⟨indexWidth, 2⟩⟩] := by
  have hshape : loopProgram.LoopShape 3 (.result 0 0) (.result 1 0) (.result 2 0) [.result 0 0] 1
      [.result 4 0] .index :=
    ⟨rfl, rfl, ⟨6, rfl, rfl, rfl⟩, ⟨rfl, rfl, rfl⟩, rfl, rfl, rfl⟩
  have hbody : ∀ iv carried, (loopProgram.yieldedValues 1).map (countScript.answer ((1, .known iv ::
      carried) :: [])) = countBody iv.payload carried := fun _ _ => rfl
  have hlb : (countScript.answer [] (.result 0 0)).payload? = some ⟨indexWidth, 0⟩ := rfl
  have hub : (countScript.answer [] (.result 1 0)).payload? = some ⟨indexWidth, 3⟩ := rfl
  have hstep : (countScript.answer [] (.result 2 0)).payload? = some ⟨indexWidth, 1⟩ := rfl
  have hthree : 3 = tripCount (integer false (0 : BitVec indexWidth))
      (integer false (3 : BitVec indexWidth))
      (integer false (1 : BitVec indexWidth)) := by
    have hlt : 2 < tripCount 0 3 1 := (lt_tripCount one_pos 2).mpr (by norm_num)
    have hge : ¬ 3 < tripCount 0 3 1 := (lt_tripCount one_pos 3).not.mpr (by norm_num)
    exact le_antisymm hlt (not_lt.mp hge)
  obtain ⟨-, -, hspace⟩ := evaluate_iterationSpace hshape false ScriptState.empty hlb hub hstep
    (List.forall_mem_singleton.mpr rfl) hbody
  obtain ⟨hresults, -⟩ := hspace (by decide) 3 hthree _ rfl
  exact hresults

end SCF

end MlirInterpreter
