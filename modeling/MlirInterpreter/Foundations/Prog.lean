import MlirInterpreter.Foundations.Recorded
import Mathlib.Tactic.Common

/-!
# Programs over an interface

`Prog I R α` is a program that may call the operations `I` of some interface, receives an `R i` from
a call of `i`, and finally returns an `α`.  It is a well-founded tree, so a program makes finitely
many calls on every path, but how many and which ones depends on the responses.

A program means nothing until `Prog.run` interprets its calls by a handler.  Quantifying over all
`Prog`s is therefore quantifying over all clients that act through the interface only:

* `Prog.wp_run` is the invariant rule for such an arbitrary client: what every single call
  preserves, every run of every program preserves;
* `Prog.steps_run` is the same for the relation between consecutive states;
* `Prog.wp_run_call` and `Prog.wp_run_bind` are the rules for a program that is known.

`Prog.interp` is the simpler interpretation by a handler that can neither stop nor be observed in
between.

A `MonadLogic M S` interprets the programs of any monad `M` as predicate transformers over a state
`S`.  Code that is written once for every monad is verified once for every logic:

* `MonadLogic.plain` is the logic of pure computations;
* `MonadLogic.traced` is the logic of computations that call an oracle and keep a record of their
  calls.  The oracle may answer differently every time, depending on the calls made so far;
* `MonadLogic.interp` is the logic of programs over an interface that a pure handler interprets.
-/

set_option autoImplicit false

open Recorded

/-- A program over the interface `I` with responses `R`, returning an `α`. -/
inductive Prog (I : Type) (R : I → Type) (α : Type) : Type
  | ret (a : α)
  | call (i : I) (k : R i → Prog I R α)

namespace Prog

variable {I : Type} {R : I → Type} {S X α β : Type}

/-- Run `p` and continue with `f`. -/
def andThen (p : Prog I R α) (f : α → Prog I R β) : Prog I R β :=
  match p with
  | .ret a => f a
  | .call i k => .call i fun r => (k r).andThen f

instance : Monad (Prog I R) where
  pure := .ret
  bind := andThen

/-- The program that makes one call and returns its response. -/
def lift (i : I) : Prog I R (R i) := .call i .ret

@[simp] theorem ret_bind (a : α) (f : α → Prog I R β) : (Prog.ret a >>= f) = f a := rfl

@[simp] theorem call_bind (i : I) (k : R i → Prog I R α) (f : α → Prog I R β) :
    (Prog.call i k >>= f) = Prog.call i fun r => k r >>= f := rfl

/-- Interpret the calls of a program by a handler. -/
def run (h : (i : I) → Rec S X (R i)) : Prog I R α → Rec S X α
  | .ret a => pure a
  | .call i k => h i >>= fun r => run h (k r)

@[simp] theorem run_ret (h : (i : I) → Rec S X (R i)) (a : α) :
    run h (.ret a : Prog I R α) = pure a := rfl

@[simp] theorem run_pure (h : (i : I) → Rec S X (R i)) (a : α) :
    run h (pure a : Prog I R α) = pure a := rfl

theorem run_call (h : (i : I) → Rec S X (R i)) (i : I) (k : R i → Prog I R α) :
    run h (.call i k) = h i >>= fun r => run h (k r) := rfl

@[simp] theorem run_lift (h : (i : I) → Rec S X (R i)) (i : I) : run h (lift i) = h i := by
  simp [lift, run_call]

theorem run_bind (h : (i : I) → Rec S X (R i)) (p : Prog I R α) (f : α → Prog I R β) :
    run h (p >>= f) = run h p >>= fun a => run h (f a) := by
  induction p with
  | ret a => simp
  | call i k ih => simp only [call_bind, run_call, ih, bind_assoc]

section Rules

variable {h : (i : I) → Rec S X (R i)} {C : Contract S X}

theorem wp_run_ret {a : α} {s : S} {Q : α → S → Prop} (hq : Q a s) :
    wp C (run h (pure a)) s Q :=
  wp_pure hq

theorem wp_run_bind {p : Prog I R α} {f : α → Prog I R β} {s : S} {Q : β → S → Prop}
    (hp : wp C (run h p) s fun a s' => wp C (run h (f a)) s' Q) :
    wp C (run h (p >>= f)) s Q := by
  rw [run_bind]
  exact wp_bind hp

theorem wp_run_call {i : I} {k : R i → Prog I R α} {s : S} {Q : α → S → Prop}
    (hi : wp C (h i) s fun r s' => wp C (run h (k r)) s' Q) :
    wp C (run h (.call i k)) s Q :=
  wp_bind hi

/-- **The invariant rule for arbitrary programs.**  If every call takes a state satisfying `J` to
one that does and is related to the first by the preorder `K`, so does every run. -/
theorem wp_run {J : S → Prop} {K : S → S → Prop} (hrefl : ∀ s, K s s)
    (htrans : ∀ a b c, K a b → K b c → K a c)
    (hcall : ∀ i s, J s → wp C (h i) s fun _ s' => J s' ∧ K s s') (p : Prog I R α) :
    ∀ s, J s → wp C (run h p) s fun _ s' => J s' ∧ K s s' := by
  induction p with
  | ret a => exact fun s hs => wp_pure ⟨hs, hrefl s⟩
  | call i k ih =>
    refine fun s hs => wp_run_call (wp_mono (hcall i s hs) fun r s' hs' => ?_)
    exact wp_mono (ih r s' hs'.1) fun a s'' hs'' => ⟨hs''.1, htrans _ _ _ hs'.2 hs''.2⟩

/-- Every run of every program takes the steps its handler takes. -/
theorem steps_run {Q : S → S → Prop} (hcall : ∀ i, Steps Q (h i)) (p : Prog I R α) :
    Steps Q (run h p) := by
  induction p with
  | ret a => exact Steps.pure a
  | call i k ih => exact (hcall i).bind ih

end Rules

/-! ## Pure handlers -/

/-- Interpret the calls of a program by functions of a state. -/
def interp (h : (i : I) → StateM S (R i)) : Prog I R α → StateM S α
  | .ret a => pure a
  | .call i k => h i >>= fun r => interp h (k r)

@[simp] theorem interp_pure (h : (i : I) → StateM S (R i)) (a : α) (s : S) :
    interp h (pure a : Prog I R α) s = (a, s) := rfl

@[simp] theorem interp_lift (h : (i : I) → StateM S (R i)) (i : I) (s : S) :
    interp h (lift i) s = h i s := rfl

@[simp] theorem interp_bind (h : (i : I) → StateM S (R i)) (p : Prog I R α) (f : α → Prog I R β)
    (s : S) : interp h (p >>= f) s = interp h (f (interp h p s).1) (interp h p s).2 := by
  induction p generalizing s with
  | ret a => rfl
  | call i k ih => exact ih _ _

end Prog

/-! ## Weakest preconditions for a monad -/

/-- A logic for the programs of a monad. -/
structure MonadLogic (M : Type → Type) [Monad M] (S : Type) where
  wp : {α : Type} → M α → S → (α → S → Prop) → Prop
  wp_pure : ∀ {α : Type} {a : α} {s : S} {Q : α → S → Prop}, Q a s → wp (pure a) s Q
  wp_bind : ∀ {α β : Type} {m : M α} {f : α → M β} {s : S} {Q : β → S → Prop},
    wp m s (fun a t => wp (f a) t Q) → wp (m >>= f) s Q
  wp_mono : ∀ {α : Type} {m : M α} {s : S} {Q Q' : α → S → Prop}, wp m s Q →
    (∀ a t, Q a t → Q' a t) → wp m s Q'

/-- Computations that call an oracle, with their calls so far, oldest first. -/
abbrev Traced (I R : Type) := StateM (List (I × R))

/-- Call an oracle. -/
def Traced.call {I R : Type} (oracle : List (I × R) → I → R) (i : I) : Traced I R R :=
  fun calls => (oracle calls i, calls ++ [(i, oracle calls i)])

namespace MonadLogic

/-- Pure computations. -/
def plain : MonadLogic Id Unit where
  wp m _ Q := Q m ()
  wp_pure h := h
  wp_bind h := h
  wp_mono h hQ := hQ _ _ h

/-- Computations that call an oracle. -/
def traced (I R : Type) : MonadLogic (Traced I R) (List (I × R)) where
  wp m s Q := Q (m s).1 (m s).2
  wp_pure h := h
  wp_bind h := h
  wp_mono h hQ := hQ _ _ h

/-- Programs over an interface with a pure handler. -/
def interp {I : Type} {R : I → Type} {S : Type} (h : (i : I) → StateM S (R i)) :
    MonadLogic (Prog I R) S where
  wp p s Q := Q (p.interp h s).1 (p.interp h s).2
  wp_pure h := h
  wp_bind h := by
    rw [Prog.interp_bind]
    exact h
  wp_mono h hQ := hQ _ _ h

end MonadLogic
