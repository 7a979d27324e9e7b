import SairLowering.Mapping

/-!
# Sair programs

The operation graph the passes read and annotate (spec section 6). A program is its operations
in walk order; an operation is referred to by its position. Each operation has a domain, value
operands, results, and the `loop_nest`, `sequence` and storage attributes the passes attach.
-/

namespace SairLowering

/-- Loop names (`mlir::StringAttr`). -/
abbrev LoopName := String

/-- A Sair value: result `result` of the operation at position `op`. -/
structure Value where
  op : Nat
  result : Nat
  deriving DecidableEq, Repr, Inhabited

/-- `ValueAccess`: a value read through a mapping. A domain dimension is the range value that
defines it, read from the earlier dimensions. -/
structure ValueAccess where
  value : Value
  mapping : MappingAttr
  deriving DecidableEq, Repr, Inhabited

/-- `ValueOperand`: a value read through a mapping from the owner's domain to the value's
domain, with the element type reduced to whether it is `index`. -/
structure ValueOperand where
  value : Value
  mapping : MappingAttr
  isIndex : Bool
  deriving DecidableEq, Repr, Inhabited

/-- `LoopAttr`: a loop name and its iteration expression over the operation domain. -/
structure LoopAttr where
  name : LoopName
  iter : MappingExpr
  deriving DecidableEq, Repr, Inhabited

/-- Memory spaces of a value. -/
inductive MemorySpace where
  | register
  | memory
  deriving DecidableEq, Repr

/-- `NamedMappingAttr`: a mapping whose use dimensions are named loops. -/
structure NamedMappingAttr where
  names : List LoopName
  mapping : MappingAttr
  deriving DecidableEq, Repr, Inhabited

/-- `BufferAttr`: the storage attribute committed for one result. Buffer names are numbers: the
passes only compare them and draw fresh ones. -/
structure BufferAttr where
  space : Option MemorySpace
  bufferName : Option Nat
  layout : Option NamedMappingAttr
  deriving DecidableEq, Repr, Inhabited

/-- A Sair operation with the accessors the analyses use (spec section 9). `results` has one
entry per result, `true` for a result of `ValueType`; `storage` has one entry per result. -/
structure SairOp where
  domain : List ValueAccess
  operands : List ValueOperand
  results : List Bool
  isCompute : Bool
  loopNest : Option (List LoopAttr)
  sequence : Option Int
  storage : List (Option BufferAttr)
  deriving DecidableEq, Repr, Inhabited

/-- A `sair.program`: its operations in walk order. -/
structure Program where
  ops : List SairOp
  deriving DecidableEq, Repr, Inhabited

namespace Program

/-- The operation at position `i`. -/
def op (p : Program) (i : Nat) : SairOp := p.ops.getD i default

/-- Every value operand of every operation, with the position of its owner, in walk order. -/
def valueOperands (p : Program) : List (Nat × ValueOperand) :=
  p.ops.enum.flatMap fun (i, op) => op.operands.map ((i, ·))

/-- Every result of `ValueType`, in walk order. -/
def valueResults (p : Program) : List Value :=
  p.ops.enum.flatMap fun (i, op) =>
    (op.results.enum.filter (·.2)).map fun (r, _) => ⟨i, r⟩

/-- `v` is a result of `ValueType` of the program. -/
def IsValue (p : Program) (v : Value) : Prop :=
  v.op < p.ops.length ∧ (p.op v.op).results[v.result]? = some true

instance (p : Program) (v : Value) : Decidable (p.IsValue v) :=
  inferInstanceAs (Decidable (_ ∧ _))

theorem op_of_getElem? {p : Program} {i : Nat} {o : SairOp} (found : p.ops[i]? = some o) :
    p.op i = o := by
  simp [Program.op, found]

theorem mem_valueResults {p : Program} {v : Value} : v ∈ p.valueResults ↔ p.IsValue v := by
  obtain ⟨i, r⟩ := v
  simp only [valueResults, List.mem_flatMap, List.mem_map, List.mem_filter, Value.mk.injEq,
    Prod.exists, IsValue, List.mem_enum_iff_getElem?]
  constructor
  · rintro ⟨j, op, found, r', b, ⟨result, isValue⟩, rfl, rfl⟩
    subst isValue
    exact ⟨(List.getElem?_eq_some_iff.mp found).1, (op_of_getElem? found).symm ▸ result⟩
  · rintro ⟨bound, result⟩
    exact ⟨i, p.op i, by simp [Program.op, bound], r, true, ⟨result, rfl⟩, rfl, rfl⟩

end Program

end SairLowering
