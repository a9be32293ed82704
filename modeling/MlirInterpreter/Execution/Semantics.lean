import Mathlib.Logic.Relation
import MlirInterpreter.Reference.IterationSpace

/-!
# What an execution of a program does

The interpreter evaluates a program without running it.  This file says what running it is: a
machine with a register for every value, which runs the operations of a block one after the other.
Nothing here mentions unknown values, and nothing the interpreter does to find them.

* Constants and `arith` operations write their result; the arithmetic is that of the machine, modulo
  `2 ^ w`, whatever the overflow flags promise.
* `scf.for` runs its body for the integers from the lower bound on in steps of the step, below the
  upper bound.  Its outcome is anything where the dialect leaves it undefined: for a step that is
  not positive, and past an induction value that does not fit its type.  Its body is a scope of its
  own: what it defines lives for one iteration.
* Any other operation runs blocks of its regions, which ones, how often, in which order and on which
  arguments is up to it, and then writes anything.

`Exec` is a finished run of a task, and `RunsThrough` says which states a run passes through,
finished or not.
-/

set_option autoImplicit false

namespace MlirInterpreter

/-- What the values hold: an integer, or nothing the machine can calculate with. -/
abbrev Store (Op Blk : Type) := Value Op Blk → Option APInt

section Store

variable {Op Blk : Type} [DecidableEq Op] [DecidableEq Blk]

namespace Store

/-- Nothing has a value yet. -/
def empty : Store Op Blk := fun _ => none

/-- Write the results of an operation. -/
def setResults (σ : Store Op Blk) (op : Op) (values : List (Option APInt)) : Store Op Blk
  | .result o i => if o = op then (values[i]?).join else σ (.result o i)
  | .arg b i => σ (.arg b i)

/-- Write the arguments of a block. -/
def setArgs (σ : Store Op Blk) (b : Blk) (args : List (Option APInt)) : Store Op Blk
  | .result o i => σ (.result o i)
  | .arg c i => if c = b then (args[i]?).join else σ (.arg c i)

/-- Forget what a region defines, and the regions in it. -/
def leave (P : Program Op Blk) (σ : Store Op Blk) (r : Region Op) : Store Op Blk := fun v =>
  match P.valueRegion v with
  | some r' => if P.isAncestor r r' then none else σ v
  | none => σ v

end Store

/-- The integer arithmetic of the machine. -/
def machineArith : OpName → Option ((w : ℕ) → BitVec w → BitVec w → BitVec w)
  | .addi => some fun _ x y => x + y
  | .subi => some fun _ x y => x - y
  | .muli => some fun _ x y => x * y
  | _ => none

/-- Operations the machine knows nothing about. -/
def OpKind.isForeign : OpKind → Bool
  | .constant _ (.integer _) => false
  | .addi _ => false
  | .subi _ => false
  | .muli _ => false
  | .scfFor _ => false
  | _ => true

/-- What there is to run. -/
inductive Task (Op Blk : Type)
  | op (op : Op)
  | ops (ops : List Op)
  /-- Blocks of the regions of `op`, as often as it likes. -/
  | blocks (op : Op)
  /-- The iterations of the loop `op` from `iv` on. -/
  | iterations (op : Op) (isUnsigned : Bool) (body : Blk) {w : ℕ} (ub step iv : BitVec w)
      (carried : List (Option APInt))

open SCF (integer Fits)

variable (P : Program Op Blk)

/-- The state in which an iteration starts. -/
def enterIteration (σ : Store Op Blk) (body : Blk) (iv : APInt) (carried : List (Option APInt)) :
    Store Op Blk :=
  (σ.leave P (P.parentRegion body)).setArgs body (some iv :: carried)

/-- A finished run of a task. -/
inductive Exec : Task Op Blk → Store Op Blk → Store Op Blk → Prop
  | constant {σ : Store Op Blk} {op : Op} {id : ℕ} {a : APInt}
      (hk : P.kind op = .constant id (.integer a)) : Exec (.op op) σ (σ.setResults op [some a])
  | arith {σ : Store Op Blk} {op : Op} {l r : Value Op Blk}
      {fn : (w : ℕ) → BitVec w → BitVec w → BitVec w} {w : ℕ} {x y : BitVec w}
      (hk : machineArith (P.kind op).name = some fn) (ho : P.operands op = [l, r])
      (hl : σ l = some ⟨w, x⟩) (hr : σ r = some ⟨w, y⟩) :
      Exec (.op op) σ (σ.setResults op [some ⟨w, fn w x y⟩])
  | loop {σ σ' : Store Op Blk} {op : Op} {isUnsigned : Bool} {lb ub step : Value Op Blk}
      {inits : List (Value Op Blk)} {body : Blk} {w : ℕ} {l u s : BitVec w}
      (hk : P.kind op = .scfFor isUnsigned) (ho : P.operands op = lb :: ub :: step :: inits)
      (hb : P.loopBody op = some body) (hl : σ lb = some ⟨w, l⟩) (hu : σ ub = some ⟨w, u⟩)
      (hs : σ step = some ⟨w, s⟩)
      (h : Exec (.iterations op isUnsigned body u s l (inits.map σ)) σ σ') : Exec (.op op) σ σ'
  /-- A step that isn't positive is undefined. -/
  | badStep {σ : Store Op Blk} {op : Op} {isUnsigned : Bool} {lb ub step : Value Op Blk}
      {inits : List (Value Op Blk)} {w : ℕ} {s : BitVec w} (values : List (Option APInt))
      (hk : P.kind op = .scfFor isUnsigned) (ho : P.operands op = lb :: ub :: step :: inits)
      (hs : σ step = some ⟨w, s⟩) (hbad : integer isUnsigned s ≤ 0) :
      Exec (.op op) σ (σ.setResults op values)
  | foreign {σ σ' : Store Op Blk} {op : Op} (values : List (Option APInt))
      (hk : (P.kind op).isForeign = true) (h : Exec (.blocks op) σ σ') :
      Exec (.op op) σ (σ'.setResults op values)
  | nil {σ : Store Op Blk} : Exec (.ops []) σ σ
  | cons {σ σ₁ σ₂ : Store Op Blk} {op : Op} {ops : List Op} (h : Exec (.op op) σ σ₁)
      (h' : Exec (.ops ops) σ₁ σ₂) : Exec (.ops (op :: ops)) σ σ₂
  | done {σ : Store Op Blk} {op : Op} : Exec (.blocks op) σ σ
  | block {σ σ₁ σ₂ : Store Op Blk} {op : Op} {r : List Blk} {b : Blk} (args : List (Option APInt))
      (hr : r ∈ P.regions op) (hb : b ∈ r) (h : Exec (.ops (P.ops b)) (σ.setArgs b args) σ₁)
      (h' : Exec (.blocks op) σ₁ σ₂) : Exec (.blocks op) σ σ₂
  | exit {σ : Store Op Blk} {op : Op} {isUnsigned : Bool} {body : Blk} {w : ℕ}
      {ub step iv : BitVec w} {carried : List (Option APInt)}
      (h : ¬ integer isUnsigned iv < integer isUnsigned ub) :
      Exec (.iterations op isUnsigned body ub step iv carried) σ (σ.setResults op carried)
  | iteration {σ σ₁ σ₂ : Store Op Blk} {op : Op} {isUnsigned : Bool} {body : Blk} {w : ℕ}
      {ub step iv : BitVec w} {carried : List (Option APInt)}
      (h : integer isUnsigned iv < integer isUnsigned ub)
      (hbody : Exec (.ops (P.ops body)) (enterIteration P σ body ⟨w, iv⟩ carried) σ₁)
      (hrest : Exec (.iterations op isUnsigned body ub step (iv + step)
        ((P.yieldedValues body).map σ₁)) σ₁ σ₂) :
      Exec (.iterations op isUnsigned body ub step iv carried) σ σ₂
  /-- An induction value that does not fit its type is undefined. -/
  | overflow {σ σ₁ : Store Op Blk} {op : Op} {isUnsigned : Bool} {body : Blk} {w : ℕ}
      {ub step iv : BitVec w} {carried : List (Option APInt)} (values : List (Option APInt))
      (h : integer isUnsigned iv < integer isUnsigned ub)
      (hov : ¬ Fits isUnsigned w (integer isUnsigned iv + integer isUnsigned step))
      (hbody : Exec (.ops (P.ops body)) (enterIteration P σ body ⟨w, iv⟩ carried) σ₁) :
      Exec (.iterations op isUnsigned body ub step iv carried) σ (σ₁.setResults op values)

/-- A task gets to another one. -/
inductive GetsTo : Task Op Blk × Store Op Blk → Task Op Blk × Store Op Blk → Prop
  | loop {σ : Store Op Blk} {op : Op} {isUnsigned : Bool} {lb ub step : Value Op Blk}
      {inits : List (Value Op Blk)} {body : Blk} {w : ℕ} {l u s : BitVec w}
      (hk : P.kind op = .scfFor isUnsigned) (ho : P.operands op = lb :: ub :: step :: inits)
      (hb : P.loopBody op = some body) (hl : σ lb = some ⟨w, l⟩) (hu : σ ub = some ⟨w, u⟩)
      (hs : σ step = some ⟨w, s⟩) :
      GetsTo (.op op, σ) (.iterations op isUnsigned body u s l (inits.map σ), σ)
  | foreign {σ : Store Op Blk} {op : Op} (hk : (P.kind op).isForeign = true) :
      GetsTo (.op op, σ) (.blocks op, σ)
  | first {σ : Store Op Blk} {op : Op} {ops : List Op} : GetsTo (.ops (op :: ops), σ) (.op op, σ)
  | rest {σ σ₁ : Store Op Blk} {op : Op} {ops : List Op} (h : Exec P (.op op) σ σ₁) :
      GetsTo (.ops (op :: ops), σ) (.ops ops, σ₁)
  | block {σ : Store Op Blk} {op : Op} {r : List Blk} {b : Blk} (args : List (Option APInt))
      (hr : r ∈ P.regions op) (hb : b ∈ r) :
      GetsTo (.blocks op, σ) (.ops (P.ops b), σ.setArgs b args)
  | blocks {σ σ₁ : Store Op Blk} {op : Op} {r : List Blk} {b : Blk} (args : List (Option APInt))
      (hr : r ∈ P.regions op) (hb : b ∈ r) (h : Exec P (.ops (P.ops b)) (σ.setArgs b args) σ₁) :
      GetsTo (.blocks op, σ) (.blocks op, σ₁)
  | body {σ : Store Op Blk} {op : Op} {isUnsigned : Bool} {body : Blk} {w : ℕ}
      {ub step iv : BitVec w} {carried : List (Option APInt)}
      (h : integer isUnsigned iv < integer isUnsigned ub) :
      GetsTo (.iterations op isUnsigned body ub step iv carried, σ)
        (.ops (P.ops body), enterIteration P σ body ⟨w, iv⟩ carried)
  | iterations {σ σ₁ : Store Op Blk} {op : Op} {isUnsigned : Bool} {body : Blk} {w : ℕ}
      {ub step iv : BitVec w} {carried : List (Option APInt)}
      (h : integer isUnsigned iv < integer isUnsigned ub)
      (hbody : Exec P (.ops (P.ops body)) (enterIteration P σ body ⟨w, iv⟩ carried) σ₁) :
      GetsTo (.iterations op isUnsigned body ub step iv carried, σ)
        (.iterations op isUnsigned body ub step (iv + step) ((P.yieldedValues body).map σ₁), σ₁)

/-- A run of `op` from nothing passes through `τ`.  It need not end. -/
def RunsThrough (op : Op) (τ : Store Op Blk) : Prop :=
  ∃ t σ, Relation.ReflTransGen (GetsTo P) (.op op, Store.empty) (t, σ) ∧ (τ = σ ∨ Exec P t σ τ)

end Store

end MlirInterpreter
