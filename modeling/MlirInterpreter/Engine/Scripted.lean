import MlirInterpreter.Engine.Scope
import MlirInterpreter.Foundations.Prog

/-!
# Scripted scopes

A method of a model on its own.  A `Script` takes the place of the engine: it fixes the answer to
every query, which may depend on the blocks that are bound, always has budget left, and records what
the method does.  What holds of a method for all scripts is a property of the method, whatever the
engine and the other models do.
-/

set_option autoImplicit false

namespace MlirInterpreter

/-- What a method does to its scope. -/
inductive ScopeEvent (Op Blk π : Type)
  | query (value : Value Op Blk)
  | charge
  | freeze
  | thaw
  | bind (block : Blk) (args : List (Answer π))
  | unbind (block : Blk)
  | allocate (payload : π)

/-- The state of a scripted scope. -/
structure ScriptState (Op Blk π : Type) where
  /-- The arguments of the bound blocks, innermost first. -/
  bindings : List (Blk × List (Answer π))
  /-- What was done, oldest first. -/
  events : List (ScopeEvent Op Blk π)

/-- What a scripted scope answers. -/
structure Script (Op Blk π : Type) where
  /-- The answer to a query, given what is bound. -/
  answer : List (Blk × List (Answer π)) → Value Op Blk → Answer π
  /-- The address of the next storage. -/
  address : List (ScopeEvent Op Blk π) → ℕ

section Script

variable {Op Blk π : Type}

/-- An address has one content. -/
def Script.Stored (script : Script Op Blk π) : Prop :=
  ∀ bindings bindings' v w a b, script.answer bindings v = .known a →
    script.answer bindings' w = .known b → a.addr = b.addr → a.payload = b.payload

def ScriptState.empty : ScriptState Op Blk π := ⟨[], []⟩

/-- Record an event. -/
def ScriptState.record (s : ScriptState Op Blk π) (e : ScopeEvent Op Blk π) :
    ScriptState Op Blk π :=
  { s with events := s.events ++ [e] }

/-- The answers of a scripted scope. -/
def Script.respond (script : Script Op Blk π) :
    (i : ScopeOp Op Blk Unit π) → StateM (ScriptState Op Blk π) i.Response
  | .query v => fun s => (script.answer s.bindings v, s.record (.query v))
  | .declareCost => fun s => (true, s.record .charge)
  | .freezeCache => fun s => ((), s.record .freeze)
  | .thawCache => fun s => ((), s.record .thaw)
  | .bind b args => fun s =>
    ((), { bindings := (b, args) :: s.bindings, events := s.events ++ [.bind b args] })
  | .unbind b => fun s => ((), { bindings := s.bindings.tail, events := s.events ++ [.unbind b] })
  | .allocate payload => fun s =>
    (⟨script.address s.events, .query 0, payload⟩, s.record (.allocate payload))
  | .getWorld => fun s => ((), s)
  | .setWorld _ => fun s => ((), s)

/-- Run a method in a scripted scope. -/
def Script.run {α : Type} (script : Script Op Blk π) (p : ScopeM Op Blk Unit π α)
    (s : ScriptState Op Blk π) : α × ScriptState Op Blk π :=
  p.interp script.respond s

variable {α β : Type} (script : Script Op Blk π) (s : ScriptState Op Blk π)

@[simp] theorem Script.run_pure (a : α) :
    script.run (pure a : ScopeM Op Blk Unit π α) s = (a, s) := rfl

@[simp] theorem Script.run_bind (p : ScopeM Op Blk Unit π α) (f : α → ScopeM Op Blk Unit π β) :
    script.run (p >>= f) s = script.run (f (script.run p s).1) (script.run p s).2 :=
  Prog.interp_bind _ _ _ _

@[simp] theorem Script.run_query (v : Value Op Blk) :
    script.run (EvalScope.query v) s = (script.answer s.bindings v, s.record (.query v)) := rfl

@[simp] theorem Script.run_allocate (payload : π) :
    script.run (EvalScope.allocate payload) s =
      (⟨script.address s.events, .query 0, payload⟩, s.record (.allocate payload)) := rfl

/-- The logic of scripted scopes. -/
def Script.logic : MonadLogic (ScopeM Op Blk Unit π) (ScriptState Op Blk π) :=
  .interp script.respond

theorem Script.wp_lift {i : ScopeOp Op Blk Unit π} {f : i.Response → ScopeM Op Blk Unit π β}
    {Q : β → ScriptState Op Blk π → Prop}
    (h : script.logic.wp (f (script.respond i s).1) (script.respond i s).2 Q) :
    script.logic.wp (Prog.lift i >>= f) s Q :=
  script.logic.wp_bind h

theorem Script.wp_query {v : Value Op Blk} {f : Answer π → ScopeM Op Blk Unit π β}
    {Q : β → ScriptState Op Blk π → Prop}
    (h : script.logic.wp (f (script.answer s.bindings v)) (s.record (.query v)) Q) :
    script.logic.wp (EvalScope.query v >>= f) s Q :=
  script.wp_lift s h

theorem Script.wp_allocate {payload : π} {f : EvalValue π → ScopeM Op Blk Unit π β}
    {Q : β → ScriptState Op Blk π → Prop}
    (h : script.logic.wp (f ⟨script.address s.events, .query 0, payload⟩)
      (s.record (.allocate payload)) Q) :
    script.logic.wp (EvalScope.allocate payload >>= f) s Q :=
  script.wp_lift s h

theorem Script.wp_declareCost {f : Bool → ScopeM Op Blk Unit π β}
    {Q : β → ScriptState Op Blk π → Prop} (h : script.logic.wp (f true) (s.record .charge) Q) :
    script.logic.wp (EvalScope.declareCost >>= f) s Q :=
  script.wp_lift s h

theorem Script.wp_withFreeze {p : ScopeM Op Blk Unit π α} {Q : α → ScriptState Op Blk π → Prop}
    (h : script.logic.wp p (s.record .freeze) fun a t => Q a (t.record .thaw)) :
    script.logic.wp (EvalScope.withFreeze p) s Q := by
  refine script.wp_lift s (script.logic.wp_bind (script.logic.wp_mono h fun a t h => ?_))
  exact script.wp_lift t (script.logic.wp_pure h)

theorem Script.wp_withBinding {block : Blk} {args : List (Answer π)}
    {p : ScopeM Op Blk Unit π α} {f : α → ScopeM Op Blk Unit π β}
    {Q : β → ScriptState Op Blk π → Prop}
    (h : script.logic.wp p
      { bindings := (block, args) :: s.bindings, events := s.events ++ [.bind block args] }
      fun a t => script.logic.wp (f a)
        { bindings := t.bindings.tail, events := t.events ++ [.unbind block] } Q) :
    script.logic.wp (EvalScope.withBinding block args p >>= f) s Q := by
  refine script.logic.wp_bind (script.wp_lift s ?_)
  refine script.logic.wp_bind (script.logic.wp_mono h fun a t h => ?_)
  exact script.wp_lift t (script.logic.wp_pure h)

end Script

end MlirInterpreter
