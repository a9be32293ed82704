import Mathlib.Data.List.Basic

/-!
# Monitors

A monitor is an automaton that reads the events of a log which are about one subject.  Run for every
subject at once it says in which order the events about one subject come, however the events about
several subjects are interleaved.

A log has its newest event first.
-/

set_option autoImplicit false

/-- An automaton over events, for the subjects `K`. -/
structure Monitor (K E S : Type) where
  /-- What an event is about. -/
  subject : E → Option K
  start : S
  /-- The next state, unless the event is out of turn. -/
  advance : S → E → Option S

namespace Monitor

variable {K E S : Type} [DecidableEq K] (M : Monitor K E S)

/-- The events of a log that are about `k`. -/
def about (k : K) (log : List E) : List E := log.filter fun e => M.subject e = some k

/-- The state after the events about `k`; there is none if one of them was out of turn. -/
def state (k : K) (log : List E) : Option S :=
  (M.about k log).foldr (fun e s => s.bind fun s => M.advance s e) (some M.start)

/-- No event is out of turn. -/
def Conforms (log : List E) : Prop := ∀ k, (M.state k log).isSome = true

variable {M} {k : K} {e : E} {log log' log'' : List E}

theorem about_cons_self (h : M.subject e = some k) : M.about k (e :: log) = e :: M.about k log :=
  List.filter_cons_of_pos (by simpa using h)

theorem about_cons_of_ne (h : M.subject e ≠ some k) : M.about k (e :: log) = M.about k log :=
  List.filter_cons_of_neg (by simpa using h)

theorem state_congr (h : M.about k log' = M.about k log) : M.state k log' = M.state k log := by
  rw [state, h, state]

theorem state_cons_self (h : M.subject e = some k) :
    M.state k (e :: log) = (M.state k log).bind fun s => M.advance s e := by
  rw [state, about_cons_self h, List.foldr_cons, state]

/-- The state after one more event about `k`. -/
theorem state_cons {s : S} (h : M.subject e = some k) (hs : M.state k log = some s) :
    M.state k (e :: log) = M.advance s e := by
  rw [state_cons_self h, hs, Option.bind_some]

theorem state_cons_of_ne (h : M.subject e ≠ some k) : M.state k (e :: log) = M.state k log :=
  state_congr (about_cons_of_ne h)

/-- The events that were written in between are not about `k`. -/
def Silent (M : Monitor K E S) (k : K) (log log' : List E) : Prop :=
  M.about k log' = M.about k log

theorem Silent.refl (k : K) (log : List E) : M.Silent k log log := rfl

theorem Silent.trans (h : M.Silent k log log') (h' : M.Silent k log' log'') :
    M.Silent k log log'' :=
  Eq.trans h' h

theorem Silent.cons (h : M.subject e ≠ some k) (log : List E) : M.Silent k log (e :: log) :=
  about_cons_of_ne h

theorem Silent.state (h : M.Silent k log log') : M.state k log' = M.state k log := state_congr h

end Monitor
