import Mathlib.Data.Fin.VecNotation
import Mathlib.Data.Fintype.Basic
import Mathlib.Logic.Relation

/-!
# Operations, blocks, regions and values

The part of MLIR's IR the interpreter looks at.  A `Program Op Blk` is a set of operations named by
`Op` and of blocks named by `Blk`, the way a program in memory is a set of `Operation *` and `Block
*`: two operations are the same if and only if their names are.  Operands refer to values by name,
so use before definition, uses from nested regions and use-def cycles need nothing special.

Nesting is given twice, as MLIR has it: an operation lists its regions, a region its blocks and a
block its operations, and every operation knows its block and every block its region.  The fields
`mem_ops_iff`, `mem_region` and `region_of_mem` say that the two agree, and `depth_lt` that nesting
is well founded.  MLIR's lists are intrusive, so nothing is in one of them twice.

`Program.isAncestor` is `Region::isAncestor`, and `Inside` is what it decides.
-/

set_option autoImplicit false

namespace MlirInterpreter

/-- A type, as far as the interpreter tells types apart. -/
inductive Ty
  | integer (width : ℕ)
  | index
  | other (id : ℕ)
deriving DecidableEq

/-- `llvm::APInt`: a bit vector together with its width. -/
structure APInt where
  /-- The bit width. -/
  width : ℕ
  /-- The bits. -/
  bits : BitVec width
deriving DecidableEq

/-- The storage width of `index`, `IndexType::kInternalStorageBitWidth`. -/
def indexWidth : ℕ := 64

/-- The width of the integers of a type. -/
def Ty.width? : Ty → Option ℕ
  | .integer w => some w
  | .index => some indexWidth
  | .other _ => none

/-- An attribute a constant can fold to: an `IntegerAttr`, or any other one. -/
inductive Attribute
  | integer (value : APInt)
  | other (id : ℕ)
deriving DecidableEq

/-- `arith::IntegerOverflowFlags`. -/
structure OverflowFlags where
  nsw : Bool
  nuw : Bool
deriving DecidableEq

/-- `arith::IntegerOverflowFlags::none`. -/
def OverflowFlags.none : OverflowFlags := ⟨false, false⟩

/-- The name of an operation, `OperationName`. -/
inductive OpName
  | constant (id : ℕ)
  | addi
  | subi
  | muli
  | scfFor
  | scfYield
  | other (id : ℕ) (commutative : Bool)
deriving DecidableEq

/-- The inherent properties of an operation. -/
inductive Properties
  | none
  | value (attr : Attribute)
  | overflow (flags : Option OverflowFlags)
  | unsignedCmp (isUnsigned : Bool)
  | other (id : ℕ)
deriving DecidableEq

/-- What an operation is: its name together with the properties an operation of that name has.
`constant` stands for every `ConstantLike` operation and `other` for every operation without an
evaluation function that is not one. -/
inductive OpKind
  | constant (id : ℕ) (value : Attribute)
  | addi (overflow : Option OverflowFlags)
  | subi (overflow : Option OverflowFlags)
  | muli (overflow : Option OverflowFlags)
  | scfFor (unsignedCmp : Bool)
  | scfYield
  | other (id : ℕ) (commutative : Bool) (properties : ℕ)
deriving DecidableEq

namespace OpKind

def name : OpKind → OpName
  | .constant id _ => .constant id
  | .addi _ => .addi
  | .subi _ => .subi
  | .muli _ => .muli
  | .scfFor _ => .scfFor
  | .scfYield => .scfYield
  | .other id commutative _ => .other id commutative

def properties : OpKind → Properties
  | .constant _ value => .value value
  | .addi overflow => .overflow overflow
  | .subi overflow => .overflow overflow
  | .muli overflow => .overflow overflow
  | .scfFor unsignedCmp => .unsignedCmp unsignedCmp
  | .scfYield => .none
  | .other _ _ properties => .other properties

/-- Operations of one name and equal properties are of the same kind. -/
theorem eq_of_name_eq {k k' : OpKind} (hn : k.name = k'.name)
    (hp : k.properties = k'.properties) : k = k' := by
  cases k <;> cases k' <;> simp_all [name, properties]

end OpKind

/-- The trait `OpTrait::IsCommutative`. -/
def OpName.isCommutative : OpName → Bool
  | .addi => true
  | .muli => true
  | .other _ commutative => commutative
  | _ => false

/-- A value: a result of an operation or an argument of a block. -/
inductive Value (Op Blk : Type)
  | result (op : Op) (idx : ℕ)
  | arg (block : Blk) (idx : ℕ)
deriving DecidableEq

/-- A region, named by the operation it belongs to and its number there. -/
structure Region (Op : Type) where
  op : Op
  index : ℕ
deriving DecidableEq

/-- The operations and blocks of a program. -/
structure Program (Op Blk : Type) where
  kind : Op → OpKind
  /-- The discardable attributes, `getRawDictionaryAttrs`; attribute dictionaries are uniqued. -/
  attrs : Op → ℕ
  operands : Op → List (Value Op Blk)
  resultTypes : Op → List Ty
  successors : Op → List Blk
  /-- The blocks of each region of an operation. -/
  regions : Op → List (List Blk)
  argTypes : Blk → List Ty
  /-- The operations of a block, in order. -/
  ops : Blk → List Op
  /-- The block that contains an operation, if any. -/
  parentBlock : Op → Option Blk
  /-- The region that contains a block. -/
  parentRegion : Blk → Region Op
  /-- How deeply an operation is nested. -/
  depth : Op → ℕ
  /-- MLIR's `isMemoryEffectFree`. -/
  isMemoryEffectFree : Op → Bool
  mem_ops_iff : ∀ op b, op ∈ ops b ↔ parentBlock op = some b
  ops_nodup : ∀ b, (ops b).Nodup
  mem_region : ∀ b, b ∈ ((regions (parentRegion b).op)[(parentRegion b).index]?).getD []
  region_of_mem : ∀ op, ∀ r ∈ (regions op).zipIdx, ∀ b ∈ r.1, parentRegion b = ⟨op, r.2⟩
  blocks_nodup : ∀ op, ∀ r ∈ regions op, r.Nodup
  depth_lt : ∀ op b, parentBlock op = some b → depth (parentRegion b).op < depth op

namespace Program

variable {Op Blk : Type} (P : Program Op Blk)

def numResults (op : Op) : ℕ := (P.resultTypes op).length

def numArgs (b : Blk) : ℕ := (P.argTypes b).length

def results (op : Op) : List (Value Op Blk) :=
  (List.range (P.numResults op)).map (.result op)

def arguments (b : Blk) : List (Value Op Blk) :=
  (List.range (P.numArgs b)).map (.arg b)

/-- `Value::getType`. -/
def valueType : Value Op Blk → Option Ty
  | .result op i => (P.resultTypes op)[i]?
  | .arg b i => (P.argTypes b)[i]?

/-- A value that exists. -/
def Valid : Value Op Blk → Prop
  | .result op i => i < P.numResults op
  | .arg b i => i < P.numArgs b

instance (v : Value Op Blk) : Decidable (P.Valid v) := by
  cases v <;> exact Nat.decLt _ _

/-- The attribute a constant-like operation folds to, `matchPattern(op, m_Constant(&attr))`. -/
def constantAttr (op : Op) : Option Attribute :=
  match P.kind op with
  | .constant _ value => some value
  | _ => none

/-- `Operation::getParentRegion`. -/
def opRegion (op : Op) : Option (Region Op) := (P.parentBlock op).map P.parentRegion

/-- `Value::getParentRegion`. -/
def valueRegion : Value Op Blk → Option (Region Op)
  | .result op _ => P.opRegion op
  | .arg b _ => some (P.parentRegion b)

/-! ## Ancestors of a region -/

/-- `r` and the regions around it, innermost first, `n` levels up at most. -/
def enclosing : ℕ → Region Op → List (Region Op)
  | 0, r => [r]
  | n + 1, r => r :: match P.opRegion r.op with
    | none => []
    | some r' => enclosing n r'

/-- `Region::isAncestor`: is `r` the region `r'` or one around it? -/
def isAncestor [DecidableEq Op] (r r' : Region Op) : Bool :=
  decide (r ∈ P.enclosing (P.depth r'.op) r')

/-- `r` is the region `r'` or one around it. -/
inductive Inside (r : Region Op) : Region Op → Prop
  | refl : Inside r r
  | up {r' r'' : Region Op} (h : P.opRegion r'.op = some r'') (h' : Inside r r'') : Inside r r'

variable {P}

theorem depth_opRegion_lt {op : Op} {r : Region Op} (h : P.opRegion op = some r) :
    P.depth r.op < P.depth op := by
  rw [opRegion, Option.map_eq_some_iff] at h
  obtain ⟨b, hb, rfl⟩ := h
  exact P.depth_lt op b hb

theorem inside_of_mem_enclosing {r : Region Op} : ∀ {n : ℕ} {r' : Region Op},
    r ∈ P.enclosing n r' → P.Inside r r'
  | 0, r', h => by
    rw [enclosing, List.mem_singleton] at h
    exact h ▸ .refl
  | n + 1, r', h => by
    rw [enclosing, List.mem_cons] at h
    rcases h with rfl | h
    · exact .refl
    · cases hr : P.opRegion r'.op with
      | none => simp [hr] at h
      | some r'' =>
        rw [hr] at h
        exact .up hr (inside_of_mem_enclosing h)

theorem Inside.mem_enclosing {r r' : Region Op} (h : P.Inside r r') :
    ∀ {n : ℕ}, P.depth r'.op ≤ n → r ∈ P.enclosing n r' := by
  induction h with
  | refl => intro n _; cases n <;> simp [enclosing]
  | @up r' r'' hr _ ih =>
    intro n hn
    have hlt := depth_opRegion_lt hr
    obtain ⟨m, rfl⟩ : ∃ m, n = m + 1 := ⟨n - 1, by omega⟩
    rw [enclosing, hr]
    exact List.mem_cons_of_mem _ (ih (by omega))

/-- The walk up the regions finds exactly the ancestors. -/
theorem isAncestor_iff [DecidableEq Op] {r r' : Region Op} :
    P.isAncestor r r' = true ↔ P.Inside r r' := by
  rw [isAncestor, decide_eq_true_eq]
  exact ⟨inside_of_mem_enclosing, fun h => h.mem_enclosing le_rfl⟩

theorem Inside.trans {a b c : Region Op} (h : P.Inside a b) (h' : P.Inside b c) :
    P.Inside a c := by
  induction h' with
  | refl => exact h
  | up hr _ ih => exact .up hr ih

/-! ## Loops -/

variable (P)

/-- The body of a loop, the only block of its only region. -/
def loopBody (op : Op) : Option Blk :=
  match P.regions op with
  | [[b]] => some b
  | _ => none

/-- The operands of the terminator of a block, for the body of a loop its `scf.yield`. -/
def yieldedValues (b : Blk) : List (Value Op Blk) :=
  match (P.ops b).getLast? with
  | some t => P.operands t
  | none => []

/-- Is the operation an `scf.for`? -/
def isLoop (op : Op) : Bool :=
  match P.kind op with
  | .scfFor _ => true
  | _ => false

/-- Is the operation one of `arith.addi`, `arith.subi` and `arith.muli`? -/
def isArith (op : Op) : Bool :=
  match P.kind op with
  | .addi _ => true
  | .subi _ => true
  | .muli _ => true
  | _ => false

/-- The values an evaluation of `op` may ask for by itself: its operands and, for a loop, what its
body yields. -/
def dependencies (op : Op) : List (Value Op Blk) :=
  P.operands op ++
    if P.isLoop op then (P.loopBody op).elim [] P.yieldedValues else []

/-- An operation demands the operations that define its dependencies. -/
def Demands (op op' : Op) : Prop := ∃ i, Value.result op' i ∈ P.dependencies op

/-- The use-def graph is acyclic. -/
def Acyclic : Prop := ∀ op, ¬ Relation.TransGen P.Demands op op

/-- `v` depends on an argument of `b`, other than through the iterations of a loop with body `b`. -/
inductive Depends (b : Blk) : Value Op Blk → Prop
  | arg (i : ℕ) : Depends b (.arg b i)
  | operand {op : Op} {v : Value Op Blk} (i : ℕ) (hv : v ∈ P.operands op) (h : Depends b v) :
      Depends b (.result op i)
  | body {op : Op} {c : Blk} {v : Value Op Blk} (i : ℕ) (hop : P.isLoop op = true)
      (hc : P.loopBody op = some c) (hbc : b ≠ c) (hv : v ∈ P.yieldedValues c)
      (h : Depends b v) : Depends b (.result op i)

/-! ## Verified programs -/

/-- What the verifiers of the `arith` operations guarantee. -/
structure ArithShape (op : Op) (lhs rhs : Value Op Blk) (t : Ty) : Prop where
  operands : P.operands op = [lhs, rhs]
  results : P.resultTypes op = [t]
  lhsType : P.valueType lhs = some t
  rhsType : P.valueType rhs = some t

/-- What the verifier of `scf.for` guarantees. -/
structure LoopShape (op : Op) (lb ub step : Value Op Blk) (inits : List (Value Op Blk)) (body : Blk)
    (yields : List (Value Op Blk)) (t : Ty) : Prop where
  operands : P.operands op = lb :: ub :: step :: inits
  regions : P.regions op = [[body]]
  terminator : ∃ y, (P.ops body).getLast? = some y ∧ P.kind y = .scfYield ∧ P.operands y = yields
  control : P.valueType lb = some t ∧ P.valueType ub = some t ∧ P.valueType step = some t
  args : P.argTypes body = t :: P.resultTypes op
  initTypes : inits.map P.valueType = (P.resultTypes op).map some
  yieldTypes : yields.map P.valueType = (P.resultTypes op).map some

/-- A program MLIR's verifier accepts, as far as the interpreter depends on it: operands exist and
are defined in a region around their use, and the interpreted operations have the shape their
dialects prescribe. -/
structure Verified : Prop where
  valid : ∀ op, ∀ v ∈ P.operands op, P.Valid v
  visible : ∀ op, ∀ v ∈ P.operands op, ∃ r r', P.opRegion op = some r ∧
    P.valueRegion v = some r' ∧ P.Inside r' r
  arith : ∀ op, P.isArith op = true → ∃ lhs rhs t, P.ArithShape op lhs rhs t
  loop : ∀ op, P.isLoop op = true → ∃ lb ub step inits body yields t,
    P.LoopShape op lb ub step inits body yields t
  /-- A folded integer has the width of the type of its constant. -/
  constant : ∀ op value, P.constantAttr op = some (.integer value) →
    ∃ t, P.resultTypes op = [t] ∧ t.width? = some value.width
  /-- `arith` operations are `Pure`. -/
  arithPure : ∀ op, P.isArith op = true → P.isMemoryEffectFree op = true

/-- No loops. -/
def LoopFree : Prop := ∀ op, P.isLoop op = false

/-- Is `v` defined in a region around `op`? -/
def isVisible [DecidableEq Op] (op : Op) (v : Value Op Blk) : Bool :=
  match P.opRegion op, P.valueRegion v with
  | some r, some r' => P.isAncestor r' r
  | _, _ => false

variable {P}

theorem isVisible_iff [DecidableEq Op] {op : Op} {v : Value Op Blk} :
    P.isVisible op v = true ↔ ∃ r r', P.opRegion op = some r ∧ P.valueRegion v = some r' ∧
      P.Inside r' r := by
  rw [isVisible]
  cases P.opRegion op <;> cases P.valueRegion v <;> simp [isAncestor_iff]

/-- The use-def graph is acyclic if the operations can be ranked. -/
theorem Acyclic.of_rank (rank : Op → ℕ)
    (h : ∀ op, ∀ v ∈ P.dependencies op, ∀ o i, v = .result o i → rank o < rank op) :
    P.Acyclic := by
  have down : ∀ op o, Relation.TransGen P.Demands op o → rank o < rank op := by
    intro op o ho
    induction ho with
    | single hd => obtain ⟨i, hi⟩ := hd; exact h _ _ hi _ i rfl
    | tail _ hd ih => obtain ⟨i, hi⟩ := hd; exact (h _ _ hi _ i rfl).trans ih
  exact fun op hop => lt_irrefl _ (down op op hop)

/-- The rank of the operation that defines a value. -/
def Value.rankLt {Op Blk : Type} (rank : Op → ℕ) (n : ℕ) : Value Op Blk → Bool
  | .result o _ => rank o < n
  | .arg _ _ => true

theorem Acyclic.of_rankLt (rank : Op → ℕ)
    (h : ∀ op, ∀ v ∈ P.dependencies op, Value.rankLt rank (rank op) v = true) : P.Acyclic :=
  .of_rank rank fun op v hv o i hvo => by simpa [hvo, Value.rankLt] using h op v hv

end Program

/-! ## Five programs -/

/-- An `index` constant. -/
def indexConstant (n : ℕ) : OpKind := .constant 0 (.integer ⟨indexWidth, BitVec.ofNat indexWidth n⟩)

/--
```
%0 = arith.constant 0 : index
%1 = arith.constant 3 : index
%2 = arith.constant 1 : index
%3 = scf.for %i = %0 to %1 step %2 iter_args(%a = %0) -> (index) {
  %4 = arith.addi %a, %2 : index
  %5 = arith.muli %4, %0 : index
  scf.yield %4 : index
}
%7 = arith.muli %0, %1 : index
%8 = arith.addi %7, %3 : index
```
in a function, which is the operation number 9. -/
def loopProgram : Program (Fin 10) (Fin 2) where
  kind := ![indexConstant 0, indexConstant 3, indexConstant 1, .scfFor false,
    .addi none, .muli none,
    .scfYield, .muli none, .addi none, .other 0 false 0]
  attrs _ := 0
  operands := ![[], [], [], [.result 0 0, .result 1 0, .result 2 0, .result 0 0],
    [.arg 1 1, .result 2 0], [.result 4 0, .result 0 0], [.result 4 0],
    [.result 0 0, .result 1 0], [.result 7 0, .result 3 0], []]
  resultTypes := ![[.index], [.index], [.index], [.index], [.index], [.index], [], [.index],
    [.index], []]
  successors _ := []
  regions := ![[], [], [], [[1]], [], [], [], [], [], [[0]]]
  argTypes := ![[], [.index, .index]]
  ops := ![[0, 1, 2, 3, 7, 8], [4, 5, 6]]
  parentBlock := ![some 0, some 0, some 0, some 0, some 1, some 1, some 1, some 0, some 0, none]
  parentRegion := ![⟨9, 0⟩, ⟨3, 0⟩]
  depth := ![1, 1, 1, 1, 2, 2, 2, 1, 1, 0]
  isMemoryEffectFree op := op ≠ 9
  mem_ops_iff := by decide
  ops_nodup := by decide
  mem_region := by decide
  region_of_mem := by decide
  blocks_nodup := by decide
  depth_lt := by decide

theorem loopProgram_verified : loopProgram.Verified where
  valid := by decide
  visible op v hv := Program.isVisible_iff.mp (by revert op v; decide)
  arith op h := by
    have hop : op = 4 ∨ op = 5 ∨ op = 7 ∨ op = 8 := by revert op; decide
    rcases hop with rfl | rfl | rfl | rfl
    · exact ⟨.arg 1 1, .result 2 0, .index, rfl, rfl, rfl, rfl⟩
    · exact ⟨.result 4 0, .result 0 0, .index, rfl, rfl, rfl, rfl⟩
    · exact ⟨.result 0 0, .result 1 0, .index, rfl, rfl, rfl, rfl⟩
    · exact ⟨.result 7 0, .result 3 0, .index, rfl, rfl, rfl, rfl⟩
  loop op h := by
    obtain rfl : op = 3 := by revert op; decide
    exact ⟨.result 0 0, .result 1 0, .result 2 0, [.result 0 0], 1, [.result 4 0], .index, rfl, rfl,
      ⟨6, rfl, rfl, rfl⟩, ⟨rfl, rfl, rfl⟩, rfl, rfl, rfl⟩
  constant op value h := by
    have hconstant : ∀ op, (loopProgram.constantAttr op).isSome = true → op = 0 ∨
        op = 1 ∨ op = 2 := by
      decide
    rcases hconstant op (by simp [h]) with rfl | rfl | rfl <;>
      obtain rfl := Attribute.integer.inj (Option.some.inj h) <;> exact ⟨.index, rfl, rfl⟩
  arithPure := by decide

theorem loopProgram_acyclic : loopProgram.Acyclic :=
  .of_rankLt ![0, 0, 0, 2, 1, 2, 2, 1, 3, 0] (by decide)

/--
```
%0 = arith.constant 0 : index
%1 = arith.constant 5 : index
%2 = arith.addi %0, %1 : index
%3 = arith.addi %2, %0 : index
```
in a function, which is the operation number 4.  The two sums add the same values. -/
def sumProgram : Program (Fin 5) (Fin 1) where
  kind := ![indexConstant 0, indexConstant 5, .addi none, .addi none, .other 0 false 0]
  attrs _ := 0
  operands := ![[], [], [.result 0 0, .result 1 0], [.result 2 0, .result 0 0], []]
  resultTypes := ![[.index], [.index], [.index], [.index], []]
  successors _ := []
  regions := ![[], [], [], [], [[0]]]
  argTypes _ := []
  ops _ := [0, 1, 2, 3]
  parentBlock := ![some 0, some 0, some 0, some 0, none]
  parentRegion _ := ⟨4, 0⟩
  depth := ![1, 1, 1, 1, 0]
  isMemoryEffectFree op := op ≠ 4
  mem_ops_iff := by decide
  ops_nodup := by decide
  mem_region := by decide
  region_of_mem := by decide
  blocks_nodup := by decide
  depth_lt := by decide

theorem sumProgram_loopFree : sumProgram.LoopFree := by
  rw [Program.LoopFree]
  decide

theorem sumProgram_verified : sumProgram.Verified where
  valid := by decide
  visible op v hv := Program.isVisible_iff.mp (by revert op v; decide)
  arith op h := by
    have hop : op = 2 ∨ op = 3 := by revert op; decide
    rcases hop with rfl | rfl
    · exact ⟨.result 0 0, .result 1 0, .index, rfl, rfl, rfl, rfl⟩
    · exact ⟨.result 2 0, .result 0 0, .index, rfl, rfl, rfl, rfl⟩
  loop op h := by simp [sumProgram_loopFree op] at h
  constant op value h := by
    have hconstant : ∀ op, (sumProgram.constantAttr op).isSome = true → op = 0 ∨ op = 1 := by decide
    rcases hconstant op (by simp [h]) with rfl | rfl <;>
      obtain rfl := Attribute.integer.inj (Option.some.inj h) <;> exact ⟨.index, rfl, rfl⟩
  arithPure := by decide

theorem sumProgram_acyclic : sumProgram.Acyclic :=
  .of_rankLt ![0, 0, 1, 2, 0] (by decide)

/--
```
%0 = arith.constant 0 : index
%1 = arith.constant 3 : index
%2 = arith.constant 1 : index
%3 = scf.for %i = %0 to %1 step %2 iter_args(%a = %0) -> (index) {
  %4 = arith.addi %a, %2 : index
  scf.yield %4 : index
}
%6 = arith.constant 3 : index
%7 = scf.for %i = %0 to %6 step %2 iter_args(%a = %0) -> (index) {
  %8 = arith.addi %2, %a : index
  scf.yield %8 : index
}
%10 = "test.opaque"() : () -> index
%11 = arith.muli %10, %3 : index
```
in a function, which is the operation number 12.  The two loops compute the same, and the value of
the product is not known. -/
def twinProgram : Program (Fin 13) (Fin 3) where
  kind := ![indexConstant 0, indexConstant 3, indexConstant 1, .scfFor false, .addi none, .scfYield,
    indexConstant 3, .scfFor false, .addi none, .scfYield, .other 1 false 0, .muli none,
    .other 0 false 0]
  attrs _ := 0
  operands := ![[], [], [], [.result 0 0, .result 1 0, .result 2 0, .result 0 0],
    [.arg 1 1, .result 2 0], [.result 4 0], [],
    [.result 0 0, .result 6 0, .result 2 0, .result 0 0], [.result 2 0, .arg 2 1], [.result 8 0],
    [], [.result 10 0, .result 3 0], []]
  resultTypes := ![[.index], [.index], [.index], [.index], [.index], [], [.index], [.index],
    [.index], [], [.index], [.index], []]
  successors _ := []
  regions := ![[], [], [], [[1]], [], [], [], [[2]], [], [], [], [], [[0]]]
  argTypes := ![[], [.index, .index], [.index, .index]]
  ops := ![[0, 1, 2, 3, 6, 7, 10, 11], [4, 5], [8, 9]]
  parentBlock := ![some 0, some 0, some 0, some 0, some 1, some 1, some 0, some 0, some 2, some 2,
    some 0, some 0, none]
  parentRegion := ![⟨12, 0⟩, ⟨3, 0⟩, ⟨7, 0⟩]
  depth := ![1, 1, 1, 1, 2, 2, 1, 1, 2, 2, 1, 1, 0]
  isMemoryEffectFree op := op ≠ 12
  mem_ops_iff := by decide
  ops_nodup := by decide
  mem_region := by decide
  region_of_mem := by decide
  blocks_nodup := by decide
  depth_lt := by decide

theorem twinProgram_verified : twinProgram.Verified where
  valid := by decide
  visible op v hv := Program.isVisible_iff.mp (by revert op v; decide)
  arith op h := by
    have hop : op = 4 ∨ op = 8 ∨ op = 11 := by revert op; decide
    rcases hop with rfl | rfl | rfl
    · exact ⟨.arg 1 1, .result 2 0, .index, rfl, rfl, rfl, rfl⟩
    · exact ⟨.result 2 0, .arg 2 1, .index, rfl, rfl, rfl, rfl⟩
    · exact ⟨.result 10 0, .result 3 0, .index, rfl, rfl, rfl, rfl⟩
  loop op h := by
    have hop : op = 3 ∨ op = 7 := by revert op; decide
    rcases hop with rfl | rfl
    · exact ⟨.result 0 0, .result 1 0, .result 2 0, [.result 0 0], 1, [.result 4 0], .index, rfl,
        rfl, ⟨5, rfl, rfl, rfl⟩, ⟨rfl, rfl, rfl⟩, rfl, rfl, rfl⟩
    · exact ⟨.result 0 0, .result 6 0, .result 2 0, [.result 0 0], 2, [.result 8 0], .index, rfl,
        rfl, ⟨9, rfl, rfl, rfl⟩, ⟨rfl, rfl, rfl⟩, rfl, rfl, rfl⟩
  constant op value h := by
    have hconstant : ∀ op, (twinProgram.constantAttr op).isSome = true → op = 0 ∨ op = 1 ∨
        op = 2 ∨ op = 6 := by
      decide
    rcases hconstant op (by simp [h]) with rfl | rfl | rfl | rfl <;>
      obtain rfl := Attribute.integer.inj (Option.some.inj h) <;> exact ⟨.index, rfl, rfl⟩
  arithPure := by decide

theorem twinProgram_acyclic : twinProgram.Acyclic :=
  .of_rankLt ![0, 0, 0, 2, 1, 2, 0, 2, 1, 2, 0, 3, 0] (by decide)

/--
```
%0 = "test.self"(%0) : (index) -> index
%1 = "test.self"(%1) : (index) -> index
```
in a graph region of a module, which is the operation number 2. -/
def selfProgram : Program (Fin 3) (Fin 1) where
  kind := ![.other 1 false 0, .other 1 false 0, .other 0 false 0]
  attrs _ := 0
  operands := ![[.result 0 0], [.result 1 0], []]
  resultTypes := ![[.index], [.index], []]
  successors _ := []
  regions := ![[], [], [[0]]]
  argTypes _ := []
  ops _ := [0, 1]
  parentBlock := ![some 0, some 0, none]
  parentRegion _ := ⟨2, 0⟩
  depth := ![1, 1, 0]
  isMemoryEffectFree _ := true
  mem_ops_iff := by decide
  ops_nodup := by decide
  mem_region := by decide
  region_of_mem := by decide
  blocks_nodup := by decide
  depth_lt := by decide

/--
```
%1 = "test.loop"() ({
^bb0(%a: index):
  %0:2 = "test.pair"(%a) : (index) -> (index, index)
}) : () -> index
```
in a function, which is the operation number 2. -/
def pairProgram : Program (Fin 3) (Fin 2) where
  kind := ![.other 1 false 0, .other 2 false 0, .other 0 false 0]
  attrs _ := 0
  operands := ![[.arg 0 0], [], []]
  resultTypes := ![[.index, .index], [.index], []]
  successors _ := []
  regions := ![[], [[0]], [[1]]]
  argTypes := ![[.index], []]
  ops := ![[0], [1]]
  parentBlock := ![some 0, some 1, none]
  parentRegion := ![⟨1, 0⟩, ⟨2, 0⟩]
  depth := ![2, 1, 0]
  isMemoryEffectFree _ := true
  mem_ops_iff := by decide
  ops_nodup := by decide
  mem_region := by decide
  region_of_mem := by decide
  blocks_nodup := by decide
  depth_lt := by decide

end MlirInterpreter
