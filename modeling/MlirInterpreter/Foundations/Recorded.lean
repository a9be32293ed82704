import Mathlib.Data.List.Basic
import Mathlib.Order.Basic
import Mathlib.Tactic.Common

/-!
# Computations that record the states they pass through

A `Recorded.Rec S X α` is a deterministic computation over a state `S` that either ends with a value
and a state or stops with an `X`, and that lists every state it wrote on the way.  The list is what
makes statements about *every state reached inside a run* expressible for a computation given by
recursion, and it is available for runs that stop early as well.

`Recorded.wp` is its weakest precondition.  A `Contract` fixes three things for a whole run:

* `rely`, what may be assumed of every state the run passes through;
* `guar`, what has to be shown of every one of them;
* `abort`, the ways in which the run is allowed to stop early.

Postconditions compose with `wp_bind`, and the four primitive computations have one rule each.

The second half relates the states of a run to one another: `Steps R m` says that every state a run
of `m` writes is `R`-related to the one before it, so for a reflexive and transitive `R` all states
of a run are related in the order in which they were reached (`Steps.pairwise`).
-/

set_option autoImplicit false

namespace Recorded

variable {S X α β γ : Type}

/-- How a run went: the states it wrote, oldest first, and its value and last state, or the reason
why it stopped. -/
structure Run (S X α : Type) where
  /-- The states written, oldest first. -/
  visited : List S
  /-- The value and the last state, or the reason why the run stopped early. -/
  outcome : Except X (α × S)

/-- The value of a run that did not stop early. -/
def Run.value? (r : Run S X α) : Option α :=
  match r.outcome with
  | .ok (a, _) => some a
  | .error _ => none

theorem Run.outcome_of_value? {r : Run S X α} {a : α} (h : r.value? = some a) :
    ∃ s, r.outcome = .ok (a, s) := by
  rw [Run.value?] at h
  split at h
  · next b s hr => exact ⟨s, Option.some.inj h ▸ hr⟩
  · simp at h

/-- A computation over the state `S`. -/
def Rec (S X α : Type) := S → Run S X α

namespace Rec

/-- Run `m` and continue with `f`, unless `m` stopped. -/
def andThen (m : Rec S X α) (f : α → Rec S X β) : Rec S X β := fun s =>
  match m s with
  | ⟨t, .error x⟩ => ⟨t, .error x⟩
  | ⟨t, .ok (a, s')⟩ =>
    match f a s' with
    | ⟨t', o⟩ => ⟨t ++ t', o⟩

instance : Monad (Rec S X) where
  pure a := fun s => ⟨[], .ok (a, s)⟩
  bind := andThen

/-- Read the state. -/
def read : Rec S X S := fun s => ⟨[], .ok (s, s)⟩

/-- Write the state, which records it. -/
def write (f : S → S) : Rec S X Unit := fun s => ⟨[f s], .ok ((), f s)⟩

/-- Stop. -/
def stop (x : X) : Rec S X α := fun _ => ⟨[], .error x⟩

theorem pure_apply (a : α) (s : S) : (pure a : Rec S X α) s = ⟨[], .ok (a, s)⟩ := rfl

theorem bind_apply (m : Rec S X α) (f : α → Rec S X β) (s : S) :
    (m >>= f) s = andThen m f s := rfl

theorem bind_of_error {m : Rec S X α} {s : S} {x : X} (f : α → Rec S X β)
    (h : (m s).outcome = .error x) : (m >>= f) s = ⟨(m s).visited, .error x⟩ := by
  rw [bind_apply, andThen]
  rcases hm : m s with ⟨t, o⟩
  rw [hm] at h
  simp only at h
  subst h
  rfl

theorem bind_of_ok {m : Rec S X α} {s s' : S} {a : α} (f : α → Rec S X β)
    (h : (m s).outcome = .ok (a, s')) :
    (m >>= f) s = ⟨(m s).visited ++ (f a s').visited, (f a s').outcome⟩ := by
  rw [bind_apply, andThen]
  rcases hm : m s with ⟨t, o⟩
  rw [hm] at h
  simp only at h
  subst h
  rfl

theorem bind_pure' (m : Rec S X α) : (m >>= fun a => pure a) = m := by
  funext s
  rw [bind_apply, andThen]
  rcases m s with ⟨t, x | ⟨a, s'⟩⟩
  · rfl
  · simp [pure_apply]

theorem bind_assoc' (m : Rec S X α) (f : α → Rec S X β) (g : β → Rec S X γ) :
    m >>= f >>= g = m >>= fun a => f a >>= g := by
  funext s
  simp only [bind_apply, andThen]
  rcases m s with ⟨t, x | ⟨a, s'⟩⟩
  · rfl
  · simp only
    rcases f a s' with ⟨t', x | ⟨b, s''⟩⟩
    · rfl
    · simp [List.append_assoc]

instance : LawfulMonad (Rec S X) :=
  LawfulMonad.mk' _ bind_pure' (fun _ _ => rfl) bind_assoc'

end Rec

/-! ## Weakest preconditions -/

/-- What is assumed and what has to be shown of a whole run. -/
structure Contract (S X : Type) where
  /-- Assumed of every state the run writes. -/
  rely : S → Prop
  /-- To be shown of every state the run writes. -/
  guar : S → Prop
  /-- The reasons for which the run may stop early. -/
  abort : X → Prop

/-- The run of `m` from `s` keeps the contract and, if it ends, ends in `Q`. -/
def wp (C : Contract S X) (m : Rec S X α) (s : S) (Q : α → S → Prop) : Prop :=
  (∀ t ∈ (m s).visited, C.rely t) →
    (∀ t ∈ (m s).visited, C.guar t) ∧
      (∀ a s', (m s).outcome = .ok (a, s') → Q a s') ∧
      ∀ x, (m s).outcome = .error x → C.abort x

section Rules

variable {C : Contract S X}

theorem wp_pure {a : α} {s : S} {Q : α → S → Prop} (h : Q a s) :
    wp C (pure a) s Q := by
  intro _
  refine ⟨by simp [Rec.pure_apply], fun a' s' he => ?_, fun x he => by simp [Rec.pure_apply] at he⟩
  simp only [Rec.pure_apply, Except.ok.injEq, Prod.mk.injEq] at he
  obtain ⟨rfl, rfl⟩ := he
  exact h

theorem wp_bind {m : Rec S X α} {f : α → Rec S X β} {s : S} {Q : β → S → Prop}
    (h : wp C m s fun a s' => wp C (f a) s' Q) : wp C (m >>= f) s Q := by
  intro hrely
  cases ho : (m s).outcome with
  | error x =>
    rw [Rec.bind_of_error f ho] at hrely ⊢
    obtain ⟨hg, -, hx⟩ := h hrely
    refine ⟨hg, fun b s' he => by simp at he, fun y he => ?_⟩
    simp only [Except.error.injEq] at he
    exact he ▸ hx x ho
  | ok p =>
    obtain ⟨a, s'⟩ := p
    rw [Rec.bind_of_ok f ho] at hrely ⊢
    simp only [List.mem_append] at hrely
    obtain ⟨hg, hQ, -⟩ := h fun t ht => hrely t (Or.inl ht)
    obtain ⟨hg', hQ', hx'⟩ := hQ a s' ho fun t ht => hrely t (Or.inr ht)
    refine ⟨fun t ht => ?_, hQ', hx'⟩
    rcases List.mem_append.mp ht with ht | ht
    · exact hg t ht
    · exact hg' t ht

theorem wp_mono {m : Rec S X α} {s : S} {Q Q' : α → S → Prop} (h : wp C m s Q)
    (hQ : ∀ a s', Q a s' → Q' a s') : wp C m s Q' := by
  intro hrely
  obtain ⟨hg, hq, hx⟩ := h hrely
  exact ⟨hg, fun a s' he => hQ a s' (hq a s' he), hx⟩

theorem wp_read {s : S} {Q : S → S → Prop} (h : Q s s) : wp C Rec.read s Q := by
  intro _
  refine ⟨by simp [Rec.read], fun a s' he => ?_, fun x he => by simp [Rec.read] at he⟩
  simp only [Rec.read, Except.ok.injEq, Prod.mk.injEq] at he
  obtain ⟨rfl, rfl⟩ := he
  exact h

theorem wp_write {f : S → S} {s : S} {Q : Unit → S → Prop} (hg : C.rely (f s) → C.guar (f s))
    (h : C.rely (f s) → Q () (f s)) : wp C (Rec.write f) s Q := by
  intro hrely
  have hr : C.rely (f s) := hrely _ (by simp [Rec.write])
  refine ⟨fun t ht => ?_, fun a s' he => ?_, fun x he => by simp [Rec.write] at he⟩
  · simp only [Rec.write, List.mem_singleton] at ht
    exact ht ▸ hg hr
  · simp only [Rec.write, Except.ok.injEq, Prod.mk.injEq] at he
    obtain ⟨-, rfl⟩ := he
    exact h hr

theorem wp_stop {x : X} {s : S} {Q : α → S → Prop} (h : C.abort x) :
    wp C (Rec.stop x : Rec S X α) s Q := by
  intro _
  refine ⟨by simp [Rec.stop], fun a s' he => by simp [Rec.stop] at he, fun y he => ?_⟩
  simp only [Rec.stop, Except.error.injEq] at he
  exact he ▸ h

end Rules

/-! ## Steps -/

/-- The states of `l` follow one another by `R`, starting from `s` and ending in `e`. -/
inductive Chain (R : S → S → Prop) : S → List S → S → Prop
  | nil (s : S) : Chain R s [] s
  | cons {s t e : S} {l : List S} (h : R s t) (hl : Chain R t l e) : Chain R s (t :: l) e

theorem Chain.append {R : S → S → Prop} {s t e : S} {l l' : List S} (h : Chain R s l t)
    (h' : Chain R t l' e) : Chain R s (l ++ l') e := by
  induction h with
  | nil s => exact h'
  | cons hr _ ih => exact .cons hr (ih h')

/-- For a reflexive and transitive relation a chain relates its start to all of its states. -/
theorem Chain.forall_rel {R : S → S → Prop} (htrans : ∀ a b c, R a b → R b c → R a c)
    {s e : S} {l : List S} (h : Chain R s l e) : ∀ t ∈ l, R s t := by
  induction h with
  | nil s => simp
  | @cons s t e l hr _ ih =>
    intro u hu
    rcases List.mem_cons.mp hu with rfl | hu
    · exact hr
    · exact htrans _ _ _ hr (ih u hu)

/-- For a reflexive and transitive relation a chain relates its start to its end. -/
theorem Chain.rel {R : S → S → Prop} (hrefl : ∀ a, R a a)
    (htrans : ∀ a b c, R a b → R b c → R a c) {s e : S} {l : List S} (h : Chain R s l e) :
    R s e := by
  induction h with
  | nil s => exact hrefl s
  | cons hr _ ih => exact htrans _ _ _ hr ih

/-- For a reflexive and transitive relation a chain relates all of its states to its end. -/
theorem Chain.rel_end {R : S → S → Prop} (hrefl : ∀ a, R a a)
    (htrans : ∀ a b c, R a b → R b c → R a c) {s e : S} {l : List S} (h : Chain R s l e) :
    ∀ t ∈ l, R t e := by
  induction h with
  | nil s => simp
  | cons _ hl ih =>
    intro u hu
    rcases List.mem_cons.mp hu with rfl | hu
    · exact hl.rel hrefl htrans
    · exact ih u hu

theorem Chain.mono {R R' : S → S → Prop} (h : ∀ a b, R a b → R' a b) {s e : S} {l : List S}
    (hc : Chain R s l e) : Chain R' s l e := by
  induction hc with
  | nil s => exact .nil s
  | cons hr _ ih => exact .cons (h _ _ hr) ih

/-- For a transitive relation the states of a chain are related in order. -/
theorem Chain.pairwise {R : S → S → Prop} (htrans : ∀ a b c, R a b → R b c → R a c)
    {s e : S} {l : List S} (h : Chain R s l e) : (s :: l).Pairwise R := by
  induction h with
  | nil s => simp
  | @cons s t e l hr hl ih =>
    refine List.pairwise_cons.mpr ⟨fun u hu => ?_, ih⟩
    rcases List.mem_cons.mp hu with rfl | hu
    · exact hr
    · exact htrans _ _ _ hr (hl.forall_rel htrans u hu)

/-- Every state the run of `m` from `s` writes is `R`-related to the one before it. -/
def StepsAt (R : S → S → Prop) (m : Rec S X α) (s : S) : Prop :=
  (∃ e, Chain R s (m s).visited e) ∧
    ∀ a s', (m s).outcome = .ok (a, s') → Chain R s (m s).visited s'

/-- Every state a run of `m` writes is `R`-related to the one before it. -/
def Steps (R : S → S → Prop) (m : Rec S X α) : Prop := ∀ s, StepsAt R m s

section StepRules

variable {R : S → S → Prop}

theorem StepsAt.pure (a : α) (s : S) : StepsAt R (Pure.pure a : Rec S X α) s := by
  refine ⟨⟨s, .nil s⟩, fun a' s' he => ?_⟩
  simp only [Rec.pure_apply, Except.ok.injEq, Prod.mk.injEq] at he
  exact he.2 ▸ .nil s

theorem StepsAt.stop (x : X) (s : S) : StepsAt R (Rec.stop x : Rec S X α) s :=
  ⟨⟨s, .nil s⟩, fun a s' he => by simp [Rec.stop] at he⟩

theorem StepsAt.write {f : S → S} {s : S} (h : R s (f s)) :
    StepsAt R (Rec.write f : Rec S X Unit) s := by
  refine ⟨⟨f s, .cons h (.nil _)⟩, fun a' s' he => ?_⟩
  simp only [Rec.write, Except.ok.injEq, Prod.mk.injEq] at he
  exact he.2 ▸ .cons h (.nil _)

theorem StepsAt.bind {m : Rec S X α} {f : α → Rec S X β} {s : S} (hm : StepsAt R m s)
    (hf : ∀ a s', (m s).outcome = .ok (a, s') → StepsAt R (f a) s') : StepsAt R (m >>= f) s := by
  cases ho : (m s).outcome with
  | error x =>
    rw [StepsAt, Rec.bind_of_error f ho]
    exact ⟨hm.1, fun a s' he => by simp at he⟩
  | ok p =>
    obtain ⟨a, s'⟩ := p
    rw [StepsAt, Rec.bind_of_ok f ho]
    have h1 := hm.2 a s' ho
    obtain ⟨⟨e, he⟩, h2⟩ := hf a s' ho
    exact ⟨⟨e, h1.append he⟩, fun b s'' hb => h1.append (h2 b s'' hb)⟩

/-- After a read the rest of the run is known to start in the state that was read. -/
theorem StepsAt.read_bind {f : S → Rec S X β} {s : S} (hf : StepsAt R (f s) s) :
    StepsAt R (Rec.read >>= f) s := by
  refine StepsAt.bind ⟨⟨s, .nil s⟩, fun a s' he => ?_⟩ fun a s' he => ?_
  all_goals
    simp only [Rec.read, Except.ok.injEq, Prod.mk.injEq] at he
    obtain ⟨rfl, rfl⟩ := he
  · exact .nil _
  · exact hf

theorem Steps.pure (a : α) : Steps R (Pure.pure a : Rec S X α) := StepsAt.pure a

theorem Steps.stop (x : X) : Steps R (Rec.stop x : Rec S X α) := StepsAt.stop x

theorem Steps.write {f : S → S} (h : ∀ s, R s (f s)) : Steps R (Rec.write f : Rec S X Unit) :=
  fun s => StepsAt.write (h s)

theorem Steps.bind {m : Rec S X α} {f : α → Rec S X β} (hm : Steps R m)
    (hf : ∀ a, Steps R (f a)) : Steps R (m >>= f) :=
  fun s => (hm s).bind fun a s' _ => hf a s'

theorem Steps.mono {R' : S → S → Prop} {m : Rec S X α} (hm : Steps R m)
    (h : ∀ a b, R a b → R' a b) : Steps R' m := fun s =>
  ⟨(hm s).1.imp fun _ hc => hc.mono h, fun a s' he => ((hm s).2 a s' he).mono h⟩

theorem Steps.read_bind {f : S → Rec S X β} (hf : ∀ s, StepsAt R (f s) s) :
    Steps R (Rec.read >>= f) :=
  fun s => StepsAt.read_bind (hf s)

/-- **All states of a run are related in the order in which they were reached.** -/
theorem StepsAt.pairwise (htrans : ∀ a b c, R a b → R b c → R a c) {m : Rec S X α} {s : S}
    (h : StepsAt R m s) : (s :: (m s).visited).Pairwise R := by
  obtain ⟨e, he⟩ := h.1
  exact he.pairwise htrans

/-- What holds from step to step holds from the start of a run to its end. -/
theorem wp_stepsAt {C : Contract S X} (hrefl : ∀ a, R a a)
    (htrans : ∀ a b c, R a b → R b c → R a c) {m : Rec S X α} {s : S} {Q : α → S → Prop}
    (h : StepsAt R m s) (hq : wp C m s Q) : wp C m s fun a s' => Q a s' ∧ R s s' := by
  intro hrely
  obtain ⟨hg, hQ, hx⟩ := hq hrely
  exact ⟨hg, fun a s' he => ⟨hQ a s' he, (h.2 a s' he).rel hrefl htrans⟩, hx⟩

end StepRules

end Recorded
