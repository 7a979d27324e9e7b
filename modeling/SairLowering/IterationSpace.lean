import SairLowering.Program
import Mathlib.Data.List.Perm.Lattice

/-!
# Iteration spaces

`IterationSpace` (`loop_nest.h`) maps the domain of an operation to a space whose first
`num_loops` dimensions are the loops the operation is nested in. The analysis computing it,
`NumCommonLoops`, `TranslateMapping` and `CommunicationVolume` are not in the excerpted sources
and are modelled from the spec (sections 3, 4.2 and 4.4).

The iteration-space mapping of an operation whose loop nest is well formed is a permutation of
its domain (`isPermutation_iterationSpace`); the storage proofs use it through
`IsPermutation`.
-/

namespace SairLowering

open MappingExpr (dim unknown isDim_iff)

/-- Length of the longest common prefix of two loop-name lists. -/
def commonPrefixLength : List LoopName → List LoopName → Nat
  | a :: as, b :: bs => if a = b then commonPrefixLength as bs + 1 else 0
  | _, _ => 0

/-- `IterationSpace`: loop names and the mapping from the operation domain to the iteration
space, whose first `num_loops()` dimensions are the loops. -/
structure IterationSpace where
  loopNames : List LoopName
  mapping : MappingAttr
  fullySpecified : Bool
  numLoops_le : loopNames.length ≤ mapping.size

namespace IterationSpace

/-- `num_loops()`. -/
def numLoops (s : IterationSpace) : Nat := s.loopNames.length

/-- Modelled from the spec: `NumCommonLoops`, the loops the two spaces share by name, from the
outermost one on. -/
def numCommonLoops (s other : IterationSpace) : Nat :=
  commonPrefixLength s.loopNames other.loopNames

end IterationSpace

/-- The domain dimensions no iteration expression references, as free iteration dimensions. -/
def freeDims (domainSize : Nat) (iters : List MappingExpr) : List MappingExpr :=
  ((List.range domainSize).filter fun d => dim d ∉ iters).map dim

/-- Modelled from the spec: `IterationSpaceAnalysis::Get`. The loops of the `loop_nest`
attribute come first, then the domain dimensions they do not cover; without a loop nest the
space has no loop and is not fully specified. -/
def iterationSpace (op : SairOp) : IterationSpace :=
  match op.loopNest with
  | some loops =>
    { loopNames := loops.map (·.name)
      mapping := ⟨op.domain.length, loops.map (·.iter) ++ freeDims op.domain.length (loops.map (·.iter))⟩
      fullySpecified := true
      numLoops_le := by simp }
  | none =>
    { loopNames := []
      mapping := MappingAttr.identity op.domain.length
      fullySpecified := false
      numLoops_le := Nat.zero_le _ }

/-- The iteration space of the operation at position `i`. -/
def Program.iterationSpace (p : Program) (i : Nat) : IterationSpace := SairLowering.iterationSpace (p.op i)

/-- Modelled from the spec: `TranslateMapping(from, to, map)` rewrites a mapping from the domain
of `from` to the domain of `to` into one between their iteration spaces, routed through both
domain-to-iteration-space mappings and unified with the identity on the common loops. `none`
where the code fails. -/
def translateMapping (fromSpace toSpace : IterationSpace) (map : MappingAttr) :
    Option MappingAttr := do
  let fromInverse ← fromSpace.mapping.inverse
  let routed := (fromInverse.compose map).compose toSpace.mapping
  let common := fromSpace.numCommonLoops toSpace
  routed.unify ⟨routed.useDomainSize,
    (List.range common).map dim ++ List.replicate (routed.size - common) unknown⟩

/-- The dimensions of a value of rank `valueRank` that the loops common to `def` and `use` do
not determine, in increasing order. -/
def communicationDims (valueRank : Nat) (defSpace useSpace : IterationSpace) : List Nat :=
  let common := defSpace.mapping.dimensions.take (defSpace.numCommonLoops useSpace)
  (List.range valueRank).filter fun d => dim d ∉ common

/-- Modelled from the spec: `CommunicationVolume(value_rank, def, use)`, the communication
dimensions as a mapping from the value's domain. -/
def communicationVolume (valueRank : Nat) (defSpace useSpace : IterationSpace) : MappingAttr :=
  ⟨valueRank, (communicationDims valueRank defSpace useSpace).map dim⟩

theorem nodup_communicationDims (valueRank : Nat) (defSpace useSpace : IterationSpace) :
    (communicationDims valueRank defSpace useSpace).Nodup :=
  (List.nodup_range _).filter _

theorem lt_of_mem_communicationDims {valueRank d : Nat} {defSpace useSpace : IterationSpace}
    (mem : d ∈ communicationDims valueRank defSpace useSpace) : d < valueRank :=
  List.mem_range.mp (List.mem_filter.mp mem).1

/-! ## Permutations -/

/-- Every expression is a dimension, and the dimensions are `0, ..., useDomainSize - 1`, each
once. -/
def MappingAttr.IsPermutation (m : MappingAttr) : Prop :=
  (referencedDims m.dimensions).Perm (List.range m.useDomainSize) ∧ m.dimensions.all (·.isDim)

/-- A `loop_nest` attribute is well formed: its iteration expressions are distinct dimensions of
the domain (`VerifyLoopNestWellFormed`, run before the passes). -/
def LoopNestWellFormed (op : SairOp) : Prop :=
  ∀ loops, op.loopNest = some loops →
    (loops.map (·.iter)).all (·.isDim) ∧ (referencedDims (loops.map (·.iter))).Nodup ∧
      ∀ d ∈ referencedDims (loops.map (·.iter)), d < op.domain.length

/-- A `loop_nest` attribute covers the domain: every domain dimension is iterated by a loop, so
the iteration space has no free dimension. -/
def LoopNestCovers (op : SairOp) : Prop :=
  ∃ loops, op.loopNest = some loops ∧ ∀ d < op.domain.length, dim d ∈ loops.map (·.iter)

instance (op : SairOp) : Decidable (LoopNestCovers op) :=
  match h : op.loopNest with
  | some loops => decidable_of_iff (∀ d < op.domain.length, dim d ∈ loops.map LoopAttr.iter)
      (by simp [LoopNestCovers, h])
  | none => isFalse fun ⟨_, found, _⟩ => by simp [h] at found

theorem referencedDims_map_dim (ds : List Nat) : referencedDims (ds.map dim) = ds := by
  induction ds with
  | nil => rfl
  | cons d ds ih => simp [ih]

theorem isPermutation_identity (n : Nat) : (MappingAttr.identity n).IsPermutation := by
  simp [MappingAttr.IsPermutation, MappingAttr.identity, referencedDims_map_dim]

@[simp] theorem useDomainSize_iterationSpace (op : SairOp) :
    (iterationSpace op).mapping.useDomainSize = op.domain.length := by
  unfold iterationSpace; split <;> rfl

theorem loopNestWellFormed_default : LoopNestWellFormed default := by
  intro loops h; cases h

instance (op : SairOp) : Decidable (LoopNestWellFormed op) :=
  match h : op.loopNest with
  | some loops => decidable_of_iff ((loops.map LoopAttr.iter).all MappingExpr.isDim ∧
      (referencedDims (loops.map LoopAttr.iter)).Nodup ∧
      ∀ d ∈ referencedDims (loops.map LoopAttr.iter), d < op.domain.length)
      (by simp [LoopNestWellFormed, h])
  | none => isTrue fun _ found => by simp [h] at found

/-- Iteration expressions that are distinct dimensions of the domain, followed by the domain
dimensions they do not reference, are a permutation of the domain. -/
theorem isPermutation_append_freeDims {n : Nat} {iters : List MappingExpr}
    (dims : iters.all (·.isDim)) (nodup : (referencedDims iters).Nodup)
    (bound : ∀ d ∈ referencedDims iters, d < n) :
    (⟨n, iters ++ freeDims n iters⟩ : MappingAttr).IsPermutation := by
  refine ⟨?_, by simp only [List.all_append, dims, Bool.true_and]; simp [freeDims]; rintro _ _ _ _ rfl; rfl⟩
  simp only [referencedDims_append, freeDims, referencedDims_map_dim]
  refine List.Perm.trans ?_ (List.filter_append_perm (fun d => dim d ∈ iters) (List.range n))
  refine List.Perm.append ?_ (List.Perm.of_eq (List.filter_congr fun d _ => by rw [← decide_not]))
  refine (List.perm_ext_iff_of_nodup nodup ((List.nodup_range _).filter _)).mpr fun d => ?_
  simp only [mem_referencedDims, List.mem_filter, List.mem_range, decide_eq_true_eq]
  exact ⟨fun h => ⟨bound d (mem_referencedDims.mpr h), h⟩, fun h => h.2⟩

theorem isPermutation_iterationSpace {op : SairOp} (wf : LoopNestWellFormed op) :
    (iterationSpace op).mapping.IsPermutation := by
  unfold iterationSpace
  split
  · next loops hloops =>
    obtain ⟨dims, nodup, bound⟩ := wf loops hloops
    exact isPermutation_append_freeDims dims nodup bound
  · exact isPermutation_identity _

/-- When the loop nest covers the domain, every dimension of the iteration space is a loop. -/
theorem numLoops_iterationSpace {op : SairOp} (covering : LoopNestCovers op) :
    (iterationSpace op).numLoops = (iterationSpace op).mapping.size := by
  obtain ⟨loops, found, all⟩ := covering
  have free : freeDims op.domain.length (loops.map (·.iter)) = [] := by
    simpa [freeDims, List.filter_eq_nil_iff] using all
  simp [iterationSpace, found, IterationSpace.numLoops, MappingAttr.size, free]

namespace MappingAttr.IsPermutation

variable {m : MappingAttr} (perm : m.IsPermutation)
include perm

theorem nodup : (referencedDims m.dimensions).Nodup :=
  perm.1.nodup_iff.mpr (List.nodup_range _)

theorem mem_iff {d : Nat} : dim d ∈ m.dimensions ↔ d < m.useDomainSize := by
  rw [← mem_referencedDims, perm.1.mem_iff, List.mem_range]

theorem size_eq : m.size = m.useDomainSize := by
  rw [MappingAttr.size_def, ← length_referencedDims perm.2, perm.1.length_eq, List.length_range]

theorem inverse_eq :
    m.inverse = some ⟨m.size, (List.range m.useDomainSize).map (inverseAt m.dimensions)⟩ := by
  rw [MappingAttr.inverse, if_pos ⟨perm.nodup, fun d h => perm.mem_iff.mp (mem_referencedDims.mp h)⟩]

/-- Reading a dimension of the domain back through the inverse gives it back. -/
theorem substituteDims_inverseAt {d : Nat} (hd : d < m.useDomainSize) :
    (inverseAt m.dimensions d).substituteDims m.dimensions = dim d := by
  obtain ⟨i, hi⟩ := exists_inverseAt_eq_dim (perm.mem_iff.mpr hd)
  simp [hi, List.getD_eq_getElem?_getD, getElem?_of_inverseAt_eq_dim hi]

end MappingAttr.IsPermutation

end SairLowering
