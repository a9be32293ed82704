import MlirInterpreter.Engine.Query

/-!
# Sessions

A session is what the clients of a context see of it: the queries they make, by any engines, with
what they were answered and what was left of the budget, and the `clearCache` calls between them.
-/

set_option autoImplicit false

namespace MlirInterpreter

open Recorded

variable {Op Blk σ π : Type} [DecidableEq Op] [DecidableEq Blk] [Fintype Op]

/-- A call of a client, with its reply. -/
inductive Exchange (Op Blk π : Type)
  | query (engine budget : ℕ) (value : Value Op Blk) (reply : Answer π × CacheOutcome) (left : ℕ)
  | clear

/-- The calls made between two states, oldest first. -/
inductive Session (E : Setup Op Blk σ π) :
    State Op Blk σ π → List (Exchange Op Blk π) → State Op Blk σ π → Prop
  | nil (s : State Op Blk σ π) : Session E s [] s
  | query {s t u : State Op Blk σ π} {l : List (Exchange Op Blk π)} (engine budget : ℕ)
      (value : Value Op Blk) {reply : Answer π × CacheOutcome} (hv : E.program.Valid value)
      (hr : (query E engine budget value s).outcome = .ok (reply, t)) (h : Session E t l u) :
      Session E s (.query engine budget value reply t.engine.remaining :: l) u
  | clear {s u : State Op Blk σ π} {l : List (Exchange Op Blk π)}
      (h : Session E (s.clear.note .cleared) l u) : Session E s (.clear :: l) u

variable {E : Setup Op Blk σ π}

/-- A session of a context is a history of it. -/
theorem Session.history {s t : State Op Blk σ π} {l : List (Exchange Op Blk π)}
    (h : Session E s l t) {past : List (State Op Blk σ π)} (hs : History E past s) :
    ∃ past', History E (past ++ past') t := by
  induction h generalizing past with
  | nil s => exact ⟨[], by simpa using hs⟩
  | query engine budget value hv hr _ ih =>
    obtain ⟨past', h'⟩ := ih (hs.query engine budget value hv hr)
    exact ⟨_, by simpa using h'⟩
  | clear _ ih =>
    obtain ⟨past', h'⟩ := ih (hs.clear rfl)
    exact ⟨_, by simpa using h'⟩

/-- A query of a session is one of the context, after some history. -/
theorem Session.query_of_mem {s t : State Op Blk σ π} {l : List (Exchange Op Blk π)}
    (h : Session E s l t) {past : List (State Op Blk σ π)} (hs : History E past s)
    {engine budget left : ℕ} {value : Value Op Blk} {reply : Answer π × CacheOutcome}
    (hx : .query engine budget value reply left ∈ l) :
    ∃ past u u', History E past u ∧ E.program.Valid value ∧
      (MlirInterpreter.query E engine budget value u).outcome = .ok (reply, u') := by
  induction h generalizing past with
  | nil s => cases hx
  | query engine budget value hv hr _ ih =>
    rcases List.mem_cons.mp hx with heq | hx
    · obtain ⟨rfl, rfl, rfl, rfl, -⟩ := Exchange.query.inj heq
      exact ⟨past, _, _, hs, hv, hr⟩
    · exact ih (hs.query engine budget value hv hr) hx
  | clear _ ih =>
    rcases List.mem_cons.mp hx with heq | hx
    · cases heq
    · exact ih (hs.clear rfl) hx

/-- Two sessions one after the other. -/
theorem Session.append {s t u : State Op Blk σ π} {l m : List (Exchange Op Blk π)}
    (h : Session E s l t) (h' : Session E t m u) : Session E s (l ++ m) u := by
  induction h with
  | nil s => exact h'
  | query engine budget value hv hr _ ih => exact .query engine budget value hv hr (ih h')
  | clear _ ih => exact .clear (ih h')

end MlirInterpreter
