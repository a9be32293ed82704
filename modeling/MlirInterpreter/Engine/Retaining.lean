import MlirInterpreter.Engine.Handles
import MlirInterpreter.Dialects.Defaults

/-!
# Retaining values

What `EvalValueStorageAllocator::retain` does to equality, for any sequence of calls on one
allocator.

* `AbstractEvalValues` are the registered classes of values: some compare contents, the others keep
  the default and compare instances.  `EvalValue::isEqual` dispatches to them.
* `Retains` is a run: the calls made since `beginRetaining`, with whatever else happens to the
  storages in between.
* `Retaining` is what holds all through a run.  The map of copies is keyed by address and sends a
  copy to itself, so two keys may share a copy; `separate` says that one of them is then the copy's
  own.
* `retains_equality` is the result: retaining is idempotent, keeps class and contents, and neither
  merges nor splits instances.
-/

set_option autoImplicit false

namespace MlirInterpreter

/-! ## Classes of values -/

section Classes

variable {κ π : Type} [DecidableEq κ]

/-- `AbstractEvalValue`, for all registered classes: the class of a value, and how the class
compares contents, if it defines `isEqual`. -/
structure AbstractEvalValues (κ π : Type) where
  typeID : π → κ
  isEqual : κ → Option (π → π → Bool)

namespace AbstractEvalValues

variable (classes : AbstractEvalValues κ π)

/-- `EvalValue::getTypeID` -/
def getTypeID (v : EvalValue π) : κ := classes.typeID v.payload

/-- `EvalValueBase::getIsEqualFn`: the class's own `isEqual`, or the identity of the instances. -/
def isEqualFn (typeID : κ) (lhs rhs : EvalValue π) : Bool :=
  match classes.isEqual typeID with
  | some isEqual => isEqual lhs.payload rhs.payload
  | none => lhs.addr = rhs.addr

/-- `EvalValue::isEqual` -/
def isEqualValues (v other : EvalValue π) : Bool :=
  if v.addr = other.addr then true
  else if classes.getTypeID v ≠ classes.getTypeID other then false
  else classes.isEqualFn (classes.getTypeID v) v other

/-- Equality only sees the contents of two values, and whether they are one instance. -/
theorem isEqualValues_congr {v w r s : EvalValue π} (hr : r.payload = v.payload)
    (hs : s.payload = w.payload) (haddr : r.addr = s.addr ↔ v.addr = w.addr) :
    classes.isEqualValues r s = classes.isEqualValues v w := by
  by_cases h : v.addr = w.addr
  · rw [isEqualValues, isEqualValues, if_pos h, if_pos (haddr.mpr h)]
  · have hrs : r.addr ≠ s.addr := fun he => h (haddr.mp he)
    simp only [isEqualValues, isEqualFn, getTypeID, hr, hs, hrs, h]

end AbstractEvalValues

/-- The classes `registerBuiltinEvalValues` registers: `IntEvalValue`, which compares contents. -/
def builtinEvalValues : AbstractEvalValues Unit APInt where
  typeID _ := ()
  isEqual _ := some fun a b => a = b

theorem isEqualValues_builtin (v w : EvalValue APInt) :
    builtinEvalValues.isEqualValues v w = v.isEqual w := by
  rw [AbstractEvalValues.isEqualValues, EvalValue.isEqual]
  by_cases h : v.addr = w.addr
  · simp [h]
  · simp [h, AbstractEvalValues.getTypeID, AbstractEvalValues.isEqualFn, builtinEvalValues]

end Classes

/-! ## Runs -/

section Runs

variable {π : Type} {mem : Malloc} {owner : Owner} {calls : List (EvalValue π × EvalValue π)}
  {heap : List (EvalValue π)} {copies : DenseMap ℕ (EvalValue π)} {v w r s : EvalValue π}

/-- The calls of `retain` on the allocator `owner` since `beginRetaining`, the last one first, each
with what it returned.  Between two calls storages come and go, but those of the values retained and
of their copies stay: the values of a query die with it, and the next query begins retaining
anew. -/
inductive Retains (mem : Malloc) (owner : Owner) :
    List (EvalValue π × EvalValue π) → List (EvalValue π) → DenseMap ℕ (EvalValue π) → Prop
  | beginRetaining {heap : List (EvalValue π)} (hn : (addresses heap).Nodup) :
    Retains mem owner [] heap ∅
  | other {calls : List (EvalValue π × EvalValue π)} {heap heap' : List (EvalValue π)}
    {copies : DenseMap ℕ (EvalValue π)} (h : Retains mem owner calls heap copies)
    (hn : (addresses heap').Nodup) (hc : ∀ v r, (v, r) ∈ calls → v ∈ heap' ∧ r ∈ heap') :
    Retains mem owner calls heap' copies
  | retain {calls : List (EvalValue π × EvalValue π)} {heap : List (EvalValue π)}
    {copies : DenseMap ℕ (EvalValue π)} {v : EvalValue π} (h : Retains mem owner calls heap copies)
    (hv : v ∈ heap) :
    Retains mem owner ((v, (retain mem owner heap copies v).value) :: calls)
      (retain mem owner heap copies v).heap (retain mem owner heap copies v).copies

/-- The invariant of a run. -/
structure Retaining (owner : Owner) (calls : List (EvalValue π × EvalValue π))
    (heap : List (EvalValue π)) (copies : DenseMap ℕ (EvalValue π)) : Prop where
  nodup : (addresses heap).Nodup
  alive : ∀ v r, (v, r) ∈ calls → v ∈ heap ∧ r ∈ heap
  payload : ∀ v r, (v, r) ∈ calls → r.payload = v.payload
  cached : ∀ v r, (v, r) ∈ calls → v.isCached = true → r = v
  found : ∀ v r, (v, r) ∈ calls → v.isCached = false → copies.lookup v.addr = some r
  /-- What is remembered is the allocator's own, under its own address too, and somebody got it. -/
  copy : ∀ a c, copies.lookup a = some c →
    c.owner = owner ∧ copies.lookup c.addr = some c ∧
      ∃ v, (v, c) ∈ calls ∧ (a = v.addr ∨ a = c.addr)
  /-- Of two addresses with one copy, one is the copy's. -/
  separate : ∀ a b c, copies.lookup a = some c → copies.lookup b = some c →
    a = b ∨ a = c.addr ∨ b = c.addr

namespace Retaining

theorem other (h : Retaining owner calls heap copies) {heap' : List (EvalValue π)}
    (hn : (addresses heap').Nodup) (hc : ∀ v r, (v, r) ∈ calls → v ∈ heap' ∧ r ∈ heap') :
    Retaining owner calls heap' copies :=
  ⟨hn, hc, h.payload, h.cached, h.found, h.copy, h.separate⟩

/-- A copy that is remembered is alive. -/
theorem copy_mem (h : Retaining owner calls heap copies) {a : ℕ} (hc : copies.lookup a = some r) :
    r ∈ heap := by
  obtain ⟨-, -, v, hv, -⟩ := h.copy a r hc
  exact (h.alive v r hv).2

/-- An address under which a copy is remembered is in use. -/
theorem address_mem (h : Retaining owner calls heap copies) {a : ℕ}
    (hc : copies.lookup a = some r) : a ∈ addresses heap := by
  obtain ⟨-, -, v, hv, rfl | rfl⟩ := h.copy a r hc
  · exact List.mem_map_of_mem (h.alive v r hv).1
  · exact List.mem_map_of_mem (h.alive v r hv).2

/-- The copy found for a live value has its payload: it is a copy of this value, or the value
itself. -/
theorem payload_of_lookup (h : Retaining owner calls heap copies) (hv : v ∈ heap)
    (hc : copies.lookup v.addr = some r) : r.payload = v.payload := by
  obtain ⟨-, -, w, hw, ha | ha⟩ := h.copy _ _ hc
  · rw [eq_of_addr_eq h.nodup hv (h.alive w r hw).1 ha]
    exact h.payload w r hw
  · rw [eq_of_addr_eq h.nodup hv (h.copy_mem hc) ha]

/-- A call that changes nothing: the value is cached, or has a copy. -/
theorem again (h : Retaining owner calls heap copies) (hv : v ∈ heap) (hr : r ∈ heap)
    (hp : r.payload = v.payload) (hcached : v.isCached = true → r = v)
    (hfound : v.isCached = false → copies.lookup v.addr = some r) :
    Retaining owner ((v, r) :: calls) heap copies where
  nodup := h.nodup
  alive := by
    rintro w s (_ | ⟨_, hw⟩)
    · exact ⟨hv, hr⟩
    · exact h.alive w s hw
  payload := by
    rintro w s (_ | ⟨_, hw⟩)
    · exact hp
    · exact h.payload w s hw
  cached := by
    rintro w s (_ | ⟨_, hw⟩)
    · exact hcached
    · exact h.cached w s hw
  found := by
    rintro w s (_ | ⟨_, hw⟩)
    · exact hfound
    · exact h.found w s hw
  copy a c hc := by
    obtain ⟨ho, hself, w, hw, ha⟩ := h.copy a c hc
    exact ⟨ho, hself, w, List.mem_cons_of_mem _ hw, ha⟩
  separate := h.separate

/-- What is remembered once a new copy was made. -/
theorem lookup_copied {c : EvalValue π} (hself : copies.lookup c.addr = none)
    (hne : c.addr ≠ v.addr) (a : ℕ) :
    (DenseMap.tryEmplace (copies.insert v.addr c) c.addr c).lookup a =
      if a = v.addr ∨ a = c.addr then some c else copies.lookup a := by
  rw [DenseMap.lookup_tryEmplace, DenseMap.lookup_insert', DenseMap.lookup_insert', if_neg hne]
  by_cases ha : a = c.addr
  · simp [ha, hself]
  · by_cases hv : a = v.addr <;> simp [ha, hv]

/-- A call that makes a new copy. -/
theorem copied (h : Retaining owner calls heap copies) (hv : v ∈ heap)
    (huncached : v.isCached = false)
    (hnone : copies.lookup v.addr = none) :
    let c := newStorage mem heap owner v.payload
    Retaining owner ((v, c) :: calls) (c :: heap)
      (DenseMap.tryEmplace (copies.insert v.addr c) c.addr c) := by
  intro c
  have hfresh : c.addr ∉ addresses heap := mem.pick_fresh _
  have hself : copies.lookup c.addr = none := by
    cases hc : copies.lookup c.addr with
    | none => rfl
    | some d => exact absurd (h.address_mem hc) hfresh
  have hne : c.addr ≠ v.addr := fun he => hfresh (he ▸ List.mem_map_of_mem hv)
  have hlook := lookup_copied hself hne
  -- The keys of before are neither the value nor the new copy, and nor are their copies.
  have hold : ∀ a d, copies.lookup a = some d → (a ≠ v.addr ∧ a ≠ c.addr) := fun a d hd =>
    ⟨fun he => by simp [he ▸ hd] at hnone, fun he => by simp [he ▸ hd] at hself⟩
  have hkeep : ∀ a d, copies.lookup a = some d →
      (DenseMap.tryEmplace (copies.insert v.addr c) c.addr c).lookup a = some d := fun a d hd => by
    rw [hlook, if_neg (not_or.mpr (hold a d hd)), hd]
  have hcne : ∀ a, copies.lookup a ≠ some c := fun a hd => hfresh
    (List.mem_map_of_mem (h.copy_mem hd))
  refine ⟨nodup_newStorage mem h.nodup owner v.payload, ?_, ?_, ?_, ?_, fun a d hd => ?_,
    fun a b d ha hb => ?_⟩
  · rintro w s (_ | ⟨_, hw⟩)
    · exact ⟨List.mem_cons_of_mem _ hv, List.mem_cons_self⟩
    · exact (h.alive w s hw).imp (List.mem_cons_of_mem _) (List.mem_cons_of_mem _)
  · rintro w s (_ | ⟨_, hw⟩)
    · rfl
    · exact h.payload w s hw
  · rintro w s (_ | ⟨_, hw⟩) hcached
    · simp [huncached] at hcached
    · exact h.cached w s hw hcached
  · rintro w s (_ | ⟨_, hw⟩) hun
    · rw [hlook, if_pos (Or.inl rfl)]
    · exact hkeep _ _ (h.found w s hw hun)
  · rw [hlook] at hd
    split at hd
    · next ha =>
      cases hd
      exact ⟨rfl, by rw [hlook, if_pos (Or.inr rfl)], v, List.mem_cons_self, ha⟩
    · obtain ⟨ho, hd', w, hw, ha⟩ := h.copy a d hd
      exact ⟨ho, hkeep _ _ hd', w, List.mem_cons_of_mem _ hw, ha⟩
  · rw [hlook] at ha hb
    split at ha <;> split at hb
    · next ha' hb' =>
      cases ha
      rcases ha' with rfl | rfl
      · rcases hb' with rfl | rfl
        · exact Or.inl rfl
        · exact Or.inr (Or.inr rfl)
      · exact Or.inr (Or.inl rfl)
    · cases ha
      exact absurd hb (hcne b)
    · cases hb
      exact absurd ha (hcne a)
    · exact h.separate a b d ha hb

/-- **One call of `retain`.** -/
theorem retain (h : Retaining owner calls heap copies) (hv : v ∈ heap) :
    let r := MlirInterpreter.retain mem owner heap copies v
    Retaining owner ((v, r.value) :: calls) r.heap r.copies := by
  rw [MlirInterpreter.retain]
  split
  · next hc => exact h.again hv hv rfl (fun _ => rfl) (fun hu => by simp [hc] at hu)
  · next hc =>
    have hu : v.isCached = false := by simpa using hc
    split
    · next r hr =>
      exact h.again hv (h.copy_mem hr) (h.payload_of_lookup hv hr) (fun hc' => absurd hc' hc)
        fun _ => hr
    · next hnone => exact h.copied hv hu hnone

end Retaining

theorem Retains.retaining (h : Retains mem owner calls heap copies) :
    Retaining owner calls heap copies := by
  induction h with
  | beginRetaining hn => exact ⟨hn, by simp, by simp, by simp, by simp, by simp, by simp⟩
  | other _ hn hc ih => exact ih.other hn hc
  | retain _ hv ih => exact ih.retain hv

/-! ## Equality -/

/-- The value is not cached, and the allocator did not make it. -/
def Foreign (owner : Owner) (v : EvalValue π) : Prop := v.isCached = false ∧ v.owner ≠ owner

namespace Retaining

variable (h : Retaining owner calls heap copies)

include h

/-- Retaining a value twice gives one copy. -/
theorem unique (hr : (v, r) ∈ calls) (hs : (v, s) ∈ calls) : s = r := by
  cases hc : v.isCached with
  | true => rw [h.cached v r hr hc, h.cached v s hs hc]
  | false => exact Option.some.inj ((h.found v s hs hc).symm.trans (h.found v r hr hc))

/-- Retaining a copy gives it back. -/
theorem idempotent (hr : (v, r) ∈ calls) (hs : (r, s) ∈ calls) : s = r := by
  cases hc : r.isCached with
  | true => exact h.cached r s hs hc
  | false =>
    have hv : v.isCached = false := by
      cases hv : v.isCached with
      | false => rfl
      | true => rw [h.cached v r hr hv, hv] at hc; cases hc
    have hself := (h.copy _ _ (h.found v r hr hv)).2.1
    exact Option.some.inj ((h.found r s hs hc).symm.trans hself)

/-- Two values the allocator did not make have one copy exactly when they are one instance. -/
theorem addr_eq_iff (hr : (v, r) ∈ calls) (hs : (w, s) ∈ calls) (hv : Foreign owner v)
    (hw : Foreign owner w) : r.addr = s.addr ↔ v.addr = w.addr := by
  have hvr := h.found v r hr hv.1
  have hws := h.found w s hs hw.1
  -- A foreign value is not at the address of a copy.
  have hne : ∀ {x y z : EvalValue π}, (x, y) ∈ calls → Foreign owner x →
      copies.lookup x.addr = some z → x.addr ≠ z.addr := fun {x y z} hx hf hz he => by
    have := eq_of_addr_eq h.nodup (h.alive x y hx).1 (h.copy_mem hz) he
    exact hf.2 (this ▸ (h.copy _ _ hz).1)
  constructor
  · intro ha
    obtain rfl := eq_of_addr_eq h.nodup (h.copy_mem hvr) (h.copy_mem hws) ha
    rcases h.separate _ _ _ hvr hws with he | he | he
    · exact he
    · exact absurd he (hne hr hv hvr)
    · exact absurd he (hne hs hw hws)
  · intro ha
    rw [ha] at hvr
    rw [Option.some.inj (hvr.symm.trans hws)]

end Retaining

/-- **Retaining keeps equality, both ways.**  In any sequence of calls since `beginRetaining`:
retaining a value again, or retaining what was returned for it, gives the same handle; what is
returned has the class and the contents of the value; and of values that are neither cached nor the
allocator's own, what is returned for two of them is equal exactly when they are. -/
theorem retains_equality {κ : Type} [DecidableEq κ] (classes : AbstractEvalValues κ π)
    (h : Retains mem owner calls heap copies) :
    (∀ v r s, (v, r) ∈ calls → (v, s) ∈ calls → s = r) ∧
    (∀ v r s, (v, r) ∈ calls → (r, s) ∈ calls → s = r) ∧
    (∀ v r, (v, r) ∈ calls →
      classes.getTypeID r = classes.getTypeID v ∧ r.payload = v.payload) ∧
    ∀ v r w s, (v, r) ∈ calls → (w, s) ∈ calls → Foreign owner v → Foreign owner w →
      classes.isEqualValues r s = classes.isEqualValues v w := by
  have hinv := h.retaining
  refine ⟨fun v r s => hinv.unique, fun v r s => hinv.idempotent, fun v r hr => ?_,
    fun v r w s hr hs hv hw => ?_⟩
  · have hp := hinv.payload v r hr
    exact ⟨congrArg classes.typeID hp, hp⟩
  · exact classes.isEqualValues_congr (hinv.payload v r hr) (hinv.payload w s hs)
      (hinv.addr_eq_iff hr hs hv hw)

end Runs

/-! ## An identity class beside one that compares contents -/

/-- The contents are numbers; the values of one class are compared by them, those of the other are
not. -/
def numberClasses : AbstractEvalValues Bool (Bool × ℕ) where
  typeID := Prod.fst
  isEqual comparesContents := if comparesContents then some fun a b => a.2 = b.2 else none

/-- An instance of the identity class, of an earlier query. -/
def opaqueValue (addr : ℕ) (owner : Owner) : EvalValue (Bool × ℕ) := ⟨addr, owner, false, 5⟩

/-- Of two instances with the same contents, the first is retained twice, and what was returned for
it once more. -/
def opaqueCalls : List (EvalValue (Bool × ℕ) × EvalValue (Bool × ℕ)) :=
  [(opaqueValue 3 (.answers 0), opaqueValue 3 (.answers 0)),
    (opaqueValue 1 (.query 0), opaqueValue 3 (.answers 0)),
    (opaqueValue 2 (.query 0), opaqueValue 4 (.answers 0)),
    (opaqueValue 1 (.query 0), opaqueValue 3 (.answers 0))]

theorem retains_opaqueCalls :
    ∃ heap copies, Retains Malloc.next (.answers 0) opaqueCalls heap copies := by
  have begun :
      Retains .next (.answers 0) [] [opaqueValue 1 (.query 0), opaqueValue 2 (.query 0)] ∅ :=
    .beginRetaining (by decide)
  have one := begun.retain (v := opaqueValue 1 (.query 0)) (by decide)
  have two := one.retain (v := opaqueValue 2 (.query 0)) (by decide)
  have again := two.retain (v := opaqueValue 1 (.query 0)) (by decide)
  have copy := again.retain (v := opaqueValue 3 (.answers 0)) (by decide)
  exact ⟨_, _, copy⟩

theorem retains_equality_opaque :
    numberClasses.isEqualValues (opaqueValue 3 (.answers 0)) (opaqueValue 4 (.answers 0)) =
      numberClasses.isEqualValues (opaqueValue 1 (.query 0)) (opaqueValue 2 (.query 0)) ∧
    numberClasses.isEqualValues (opaqueValue 3 (.answers 0))
      (opaqueValue 4 (.answers 0)) = false := by
  obtain ⟨heap, copies, h⟩ := retains_opaqueCalls
  obtain ⟨-, -, -, heq⟩ := retains_equality numberClasses h
  refine ⟨heq _ _ _ _ (by decide) (by decide) ⟨by decide, by decide⟩ ⟨by decide, by decide⟩, ?_⟩
  decide

end MlirInterpreter
