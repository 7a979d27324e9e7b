import SairLowering.StorageInvariants
import SairLowering.Extension

/-!
# Coverage of the communication volume

`ExtendLayout` tests whether the layout of an operand's value covers the operand's communication
volume (line 151) and, when it does not, extends the layout of the value's buffer. Stage 3 runs it
on every operand; later steps put new leading dimensions in front of the layouts of the other
values of an extended buffer and turn `unknown` entries into `none`. The test asserts (line 153)
that the value has a buffer by then, i.e. that stage 1 (`FitsInRegisters`) gave a buffer to every
value whose register layout would not cover one of its operands.

Results:
1. `extendLayout_covered`: after `ExtendLayout` on an operand, the operand is covered.
   `covered_of_reflTransGen`: a covered operand stays covered over every run of storage steps.
2. `extendLayout_unify_succeeds`: on the extension path the `Unify` of lines 179-183 and the
   `MergeLayout` of line 190 succeed. `extendLayout_extension`: the buffer grows by the number of
   communication dimensions the layout does not read, and the new layout puts their iteration
   dimensions, in increasing order, in front of the old one.
3. `operands_covered`: when `RunOnProgram` succeeds, every operand is covered by the final layout
   of its value, whose buffer has at least as many dimensions as the operand's communication
   volume.
4. `extendLayout_eq_assertion`: an uncovered operand of a value without a buffer fails the
   assertion.
5. `diagonalProgram_fails_assertion`: a value read on a diagonal inside a loop its producer shares
   fits in registers for `FitsInRegisters` and still fails the assertion.
-/

namespace SairLowering

open MappingExpr (dim unknown)

/-! ## Covered operands -/

/-- The operand is covered in `sa`: its value has a layout that covers its communication
volume. -/
def Covered (p : Program) (sa : StorageAnalysis) (owner : Nat) (operand : ValueOperand) : Prop :=
  ∃ layout, (sa.storages operand.value).layout = some layout ∧ covers p owner operand layout = true

theorem Program.isPermutation_iterationSpace {p : Program}
    (nests : ∀ op ∈ p.ops, LoopNestWellFormed op) (i : Nat) :
    (p.iterationSpace i).mapping.IsPermutation := by
  refine SairLowering.isPermutation_iterationSpace ?_
  rw [Program.op, List.getD_eq_getElem?_getD]
  cases h : p.ops[i]? with
  | none => exact loopNestWellFormed_default
  | some op => exact nests op (List.getElem?_mem h)

theorem lt_of_mem_operandDims {p : Program} {owner : Nat} {operand : ValueOperand}
    (rank : operand.mapping.size ≤ (p.op operand.value.op).domain.length) {d : Nat}
    (mem : d ∈ communicationDims operand.mapping.size (p.iterationSpace operand.value.op)
      (p.iterationSpace owner)) :
    d < (p.iterationSpace operand.value.op).mapping.useDomainSize := by
  have := lt_of_mem_communicationDims mem
  simp only [Program.iterationSpace, useDomainSize_iterationSpace]
  omega

/-- A layout that determines some dimensions reads at least that many. -/
theorem Determines.length_le {m : MappingAttr} {dims : List Nat} (h : Determines m dims)
    (nodup : dims.Nodup) : dims.length ≤ m.size :=
  calc dims.length ≤ (referencedDims m.dimensions).length :=
      (List.subperm_of_subset nodup h.mem).length_le
    _ ≤ m.dimensions.length := List.length_filterMap_le _ _
    _ = m.size := rfl

/-- The communication dimensions of `operand` that `layout` does not read, in increasing order:
the dimensions `ExtendLayout` adds in front of the buffer. -/
def Program.unreadDims (p : Program) (owner : Nat) (operand : ValueOperand) (layout : MappingAttr) :
    List Nat :=
  (communicationDims operand.mapping.size (p.iterationSpace operand.value.op)
    (p.iterationSpace owner)).filter fun d =>
      dim d ∉ ((p.iterationSpace operand.value.op).mapping.compose layout).dimensions

theorem mem_unreadDims {p : Program} {owner : Nat} {operand : ValueOperand} {layout : MappingAttr}
    {d : Nat} : d ∈ p.unreadDims owner operand layout ↔
      d ∈ communicationDims operand.mapping.size (p.iterationSpace operand.value.op)
        (p.iterationSpace owner) ∧
      dim d ∉ ((p.iterationSpace operand.value.op).mapping.compose layout).dimensions := by
  simp [Program.unreadDims]

theorem nodup_unreadDims (p : Program) (owner : Nat) (operand : ValueOperand) (layout : MappingAttr) :
    (p.unreadDims owner operand layout).Nodup :=
  (nodup_communicationDims _ _ _).filter _

section

variable {p : Program} {sa sa' : StorageAnalysis} {owner : Nat} {operand : ValueOperand}

/-- The extension path of `ExtendLayout` (lines 153-192) run forward. -/
theorem extendLayout_of_extendedLayout {layout layoutToOperand newLayout : MappingAttr}
    {name numNewDims : Nat} {buffer : Buffer} {newStorage : ValueStorage}
    (hl : (sa.storages operand.value).layout = some layout)
    (invertible : ((p.iterationSpace operand.value.op).mapping.compose layout).inverse =
      some layoutToOperand)
    (uncovered : (layoutToOperand.compose (p.operandVolume owner operand)).isSurjective = false)
    (hn : (sa.storages operand.value).bufferName = some name) (hb : sa.buffers name = some buffer)
    (internal : buffer.isExternal = false)
    (extended : extendedLayout (p.iterationSpace operand.value.op).mapping layout
      (p.operandVolume owner operand) buffer.rank
      (layoutToOperand.compose (p.operandVolume owner operand)) = some (numNewDims, newLayout))
    (merged : ((sa.addDimensionsToBuffer name newLayout).storages operand.value).mergeLayout newLayout =
      some newStorage) :
    extendLayout p sa owner operand = .ok { sa.addDimensionsToBuffer name newLayout with
      storages := Function.update (sa.addDimensionsToBuffer name newLayout).storages operand.value
        newStorage } := by
  have volume : communicationVolume operand.mapping.size (p.iterationSpace operand.value.op)
      (p.iterationSpace owner) = p.operandVolume owner operand := rfl
  simp only [extendLayout, StorageAnalysis.getStorage, hl, invertible, nonNull, bind, Except.bind,
    volume, uncovered, Bool.false_eq_true, ↓reduceIte, hn, pure, Except.pure, hb,
    StorageAnalysis.getBuffer, internal, extended, merged, assertSuccess,
    StorageAnalysis.mergeStorage_of_merge (ValueStorage.merge_of_mergeLayout merged)]

/-- Line 190: after `AddDimensionsToBuffer` the value's stored layout is its old layout behind
`unknown` entries, which yield to the new layout's leading entries. -/
theorem mergeLayout_addDimensionsToBuffer {layout : MappingAttr} {name : Nat} {buffer : Buffer}
    (wf : sa.WellFormed p) {v : Value} (hl : (sa.storages v).layout = some layout)
    (hn : (sa.storages v).bufferName = some name) (hb : sa.buffers name = some buffer)
    (entries : List MappingExpr) :
    ((sa.addDimensionsToBuffer name (layout.addPrefix entries)).storages v).mergeLayout
        (layout.addPrefix entries) =
      some { (sa.addDimensionsToBuffer name (layout.addPrefix entries)).storages v with
        layout := some (layout.addPrefix entries) } := by
  have grown : (layout.addPrefix entries).size - buffer.rank = entries.length := by
    simp [← wf.rank v layout name buffer hl hn hb]
  rw [StorageAnalysis.addDimensionsToBuffer_of_some hb, grown]
  simp only [hn, hl, if_true, Option.map_some', ValueStorage.mergeLayout, mergeLayouts,
    MappingAttr.unify_addPrefix_unknown layout rfl]

/-- What a successful `ExtendLayout` does to the layouts, in closed form: nothing, or the operand's
value gets the iteration dimensions of its unread communication dimensions in front of its
layout, and every other value some `unknown` entries (none if it is not in the buffer). -/
theorem extendLayout_layouts (wf : sa.WellFormed p)
    (perm : (p.iterationSpace operand.value.op).mapping.IsPermutation)
    (rank : operand.mapping.size ≤ (p.op operand.value.op).domain.length)
    (h : extendLayout p sa owner operand = .ok sa') :
    ∃ layout, (sa.storages operand.value).layout = some layout ∧
      (sa' = sa ∧ covers p owner operand layout = true ∨
        ((p.iterationSpace operand.value.op).mapping.compose layout).inverse.isSome ∧
        (sa'.storages operand.value).layout = some (layout.addPrefix
          ((p.unreadDims owner operand layout).map
            (inverseAt (p.iterationSpace operand.value.op).mapping.dimensions))) ∧
        ∀ w ≠ operand.value, ∃ k, (sa'.storages w).layout =
          (sa.storages w).layout.map (·.addPrefix (List.replicate k unknown))) := by
  obtain ⟨layout, hl, ⟨covered, rfl⟩ | ⟨toOperand, name, buffer, numNewDims, newLayout, newStorage,
    hi, -, hn, hb, -, extended, merged, rfl⟩⟩ := extendLayout_eq_ok h
  · exact ⟨layout, hl, .inl ⟨rfl, covered⟩⟩
  refine ⟨layout, hl, .inr ⟨by simp [hi], ?_⟩⟩
  have sized := wf.rank _ layout name buffer hl hn hb
  have use := (wf.useDomain _ layout hl).trans perm.size_eq
  rw [← sized, extendedLayout_eq perm use hi rfl (nodup_communicationDims _ _ _)
    fun d mem => lt_of_mem_operandDims rank mem, Option.some.injEq, Prod.mk.injEq] at extended
  obtain ⟨rfl, rfl⟩ := extended
  rw [mergeLayout_addDimensionsToBuffer wf hl hn hb, Option.some.injEq] at merged
  subst merged
  refine ⟨by simp only [Function.update_same]; rfl, fun w other => ?_⟩
  rw [StorageAnalysis.addDimensionsToBuffer_of_some hb]
  simp only [Function.update_noteq other]
  split
  · exact ⟨_, rfl⟩
  · exact ⟨0, by cases (sa.storages w).layout <;> simp⟩

/-- After `ExtendLayout` on an operand, the operand is covered. -/
theorem extendLayout_covered (wf : sa.WellFormed p)
    (perm : (p.iterationSpace operand.value.op).mapping.IsPermutation)
    (rank : operand.mapping.size ≤ (p.op operand.value.op).domain.length)
    (h : extendLayout p sa owner operand = .ok sa') : Covered p sa' owner operand := by
  obtain ⟨layout, hl, ⟨rfl, covered⟩ | ⟨invertible, extended, -⟩⟩ := extendLayout_layouts wf perm rank h
  · exact ⟨layout, hl, covered⟩
  refine ⟨_, extended, (covers_iff rank).mpr ?_⟩
  obtain ⟨inv, hi⟩ := Option.isSome_iff_exists.mp invertible
  refine ((Determines.of_inverse hi).addPrefix_inverseAt perm (nodup_unreadDims p owner operand layout)
    (fun d mem => (mem_unreadDims.mp mem).2)
    (fun d mem => lt_of_mem_operandDims rank (mem_unreadDims.mp mem).1)).mono fun d mem => ?_
  by_cases present : dim d ∈ ((p.iterationSpace operand.value.op).mapping.compose layout).dimensions
  · exact List.mem_append_right _ (mem_referencedDims.mpr present)
  · exact List.mem_append_left _ (mem_unreadDims.mpr ⟨mem, present⟩)

/-! ## The extension path -/

/-- Past the buffer-name assertion and the external-buffer check, `ExtendLayout` cannot fail: the
unification of lines 179-183 and the `MergeLayout` of line 190 succeed, although
`AddDimensionsToBuffer` has already put new `unknown` entries in front of the stored layout. -/
theorem extendLayout_unify_succeeds {layout layoutToOperand : MappingAttr} {name : Nat}
    {buffer : Buffer} (wf : sa.WellFormed p) (nests : LoopNestWellFormed (p.op operand.value.op))
    (rank : operand.mapping.size ≤ (p.op operand.value.op).domain.length)
    (hl : (sa.storages operand.value).layout = some layout)
    (invertible : ((p.iterationSpace operand.value.op).mapping.compose layout).inverse =
      some layoutToOperand)
    (uncovered : (layoutToOperand.compose (p.operandVolume owner operand)).isSurjective = false)
    (hn : (sa.storages operand.value).bufferName = some name) (hb : sa.buffers name = some buffer)
    (internal : buffer.isExternal = false) :
    ∃ numNewDims newLayout, extendedLayout (p.iterationSpace operand.value.op).mapping layout
        (p.operandVolume owner operand) buffer.rank
        (layoutToOperand.compose (p.operandVolume owner operand)) = some (numNewDims, newLayout) ∧
      ∃ newStorage,
        ((sa.addDimensionsToBuffer name newLayout).storages operand.value).mergeLayout newLayout =
          some newStorage ∧
        extendLayout p sa owner operand = .ok { sa.addDimensionsToBuffer name newLayout with
          storages := Function.update (sa.addDimensionsToBuffer name newLayout).storages
            operand.value newStorage } := by
  have perm : (p.iterationSpace operand.value.op).mapping.IsPermutation :=
    isPermutation_iterationSpace nests
  have sized := wf.rank _ layout name buffer hl hn hb
  have use := (wf.useDomain _ layout hl).trans perm.size_eq
  have extended := @extendedLayout_eq _ _ (p.operandVolume owner operand) _ _ perm use invertible
    rfl (nodup_communicationDims _ _ _) fun d mem => lt_of_mem_operandDims rank mem
  rw [sized] at extended
  have merged := mergeLayout_addDimensionsToBuffer wf hl hn hb
    (((communicationDims operand.mapping.size (p.iterationSpace operand.value.op)
      (p.iterationSpace owner)).filter fun d =>
        dim d ∉ ((p.iterationSpace operand.value.op).mapping.compose layout).dimensions).map
      (inverseAt (p.iterationSpace operand.value.op).mapping.dimensions))
  exact ⟨_, _, extended, _, merged, extendLayout_of_extendedLayout hl invertible uncovered hn hb
    internal extended merged⟩

/-- The read of `crossProgram`'s value by its second operation, in loops `A, C`. -/
def crossOperand : ValueOperand := ⟨⟨0, 0⟩, ⟨2, [dim 0, dim 1]⟩, false⟩

theorem extendLayout_unify_succeeds_crossProgram : ∃ (sa₁ sa₂ : StorageAnalysis)
    (layout layoutToOperand : MappingAttr) (name : Nat) (buffer : Buffer),
    createBuffers crossProgram .empty = .ok sa₁ ∧ initializeStorages crossProgram sa₁ = .ok sa₂ ∧
    sa₂.WellFormed crossProgram ∧ LoopNestWellFormed (crossProgram.op crossOperand.value.op) ∧
    crossOperand.mapping.size ≤ (crossProgram.op crossOperand.value.op).domain.length ∧
    (sa₂.storages crossOperand.value).layout = some layout ∧
    ((crossProgram.iterationSpace crossOperand.value.op).mapping.compose layout).inverse =
      some layoutToOperand ∧
    (layoutToOperand.compose (crossProgram.operandVolume 1 crossOperand)).isSurjective = false ∧
    (sa₂.storages crossOperand.value).bufferName = some name ∧ sa₂.buffers name = some buffer ∧
    buffer.isExternal = false ∧
    ∃ numNewDims newLayout, extendedLayout (crossProgram.iterationSpace crossOperand.value.op).mapping
        layout (crossProgram.operandVolume 1 crossOperand) buffer.rank
        (layoutToOperand.compose (crossProgram.operandVolume 1 crossOperand)) =
          some (numNewDims, newLayout) ∧
      ∃ newStorage,
        ((sa₂.addDimensionsToBuffer name newLayout).storages crossOperand.value).mergeLayout
          newLayout = some newStorage ∧
        extendLayout crossProgram sa₂ 1 crossOperand = .ok { sa₂.addDimensionsToBuffer name newLayout with
          storages := Function.update (sa₂.addDimensionsToBuffer name newLayout).storages
            crossOperand.value newStorage } := by
  have wf := wellFormed_of_reflTransGen (StorageAnalysis.wellFormed_empty crossProgram)
    ((@createBuffers_reflTransGen crossProgram (fun _ _ => true) .empty _ rfl).trans
      (initializeStorages_reflTransGen rfl))
  exact ⟨_, _, _, _, _, _, rfl, rfl, wf, by decide, by decide, rfl, rfl, rfl, rfl, rfl, rfl,
    extendLayout_unify_succeeds wf (by decide) (by decide) rfl rfl rfl rfl rfl rfl⟩

/-- On the extension path `ExtendLayout` grows the value's internal buffer from rank `r` to
`r + k`, where `k` is the number of communication dimensions the layout leaves undetermined (the
`none` entries of `layout_to_communication_volume`). The new layout has `r + k` entries: in front,
the iteration dimensions of those `k` dimensions, one each, in increasing order; behind them the
old layout unchanged. It covers the operand's communication volume. -/
theorem extendLayout_extension {layout : MappingAttr} (wf : sa.WellFormed p)
    (nests : LoopNestWellFormed (p.op operand.value.op))
    (rank : operand.mapping.size ≤ (p.op operand.value.op).domain.length)
    (hl : (sa.storages operand.value).layout = some layout)
    (uncovered : covers p owner operand layout = false)
    (h : extendLayout p sa owner operand = .ok sa') :
    ∃ layoutToOperand name buffer,
      ((p.iterationSpace operand.value.op).mapping.compose layout).inverse = some layoutToOperand ∧
      (p.unreadDims owner operand layout).length =
        holeCount (layoutToOperand.compose (p.operandVolume owner operand)).dimensions ∧
      (sa.storages operand.value).bufferName = some name ∧ sa.buffers name = some buffer ∧
      buffer.isExternal = false ∧ layout.size = buffer.rank ∧
      sa'.buffers name =
        some { buffer with rank := buffer.rank + (p.unreadDims owner operand layout).length } ∧
      (sa'.storages operand.value).layout = some (layout.addPrefix
        ((p.unreadDims owner operand layout).map
          (inverseAt (p.iterationSpace operand.value.op).mapping.dimensions))) ∧
      (p.unreadDims owner operand layout).Nodup ∧
      ((p.unreadDims owner operand layout).map
          (inverseAt (p.iterationSpace operand.value.op).mapping.dimensions)).map
          (·.substituteDims (p.iterationSpace operand.value.op).mapping.dimensions) =
        (p.unreadDims owner operand layout).map dim ∧
      covers p owner operand (layout.addPrefix ((p.unreadDims owner operand layout).map
        (inverseAt (p.iterationSpace operand.value.op).mapping.dimensions))) = true := by
  have perm : (p.iterationSpace operand.value.op).mapping.IsPermutation :=
    isPermutation_iterationSpace nests
  have covered := extendLayout_covered wf perm rank h
  have bound : ∀ d ∈ communicationDims operand.mapping.size (p.iterationSpace operand.value.op)
      (p.iterationSpace owner), d < (p.iterationSpace operand.value.op).mapping.useDomainSize :=
    fun d mem => lt_of_mem_operandDims rank mem
  obtain ⟨layout₀, hl₀, ⟨stays, -⟩ | ⟨toOperand, name, buffer, numNewDims, newLayout, newStorage, hi,
    -, hn, hb, internal, extended, merged, rfl⟩⟩ := extendLayout_eq_ok h
  all_goals obtain rfl : layout = layout₀ := Option.some.inj (hl.symm.trans hl₀)
  · rw [stays] at uncovered; cases uncovered
  have sized := wf.rank _ layout name buffer hl hn hb
  have closed := @extendedLayout_eq _ _ (p.operandVolume owner operand) _ _ perm
    ((wf.useDomain _ layout hl).trans perm.size_eq) hi rfl (nodup_communicationDims _ _ _) bound
  rw [sized, extended, Option.some.injEq, Prod.mk.injEq] at closed
  obtain ⟨rfl, rfl⟩ := closed
  rw [mergeLayout_addDimensionsToBuffer wf hl hn hb, Option.some.injEq] at merged
  subst merged
  obtain ⟨_, hl', covers'⟩ := covered
  simp only [Function.update_same] at hl'
  obtain rfl := Option.some.inj hl'
  refine ⟨toOperand, name, buffer, hi, ?_, hn, hb, internal, sized, ?_,
    by simp only [Function.update_same]; rfl, nodup_unreadDims p owner operand layout, ?_, covers'⟩
  · obtain ⟨-, -, rfl⟩ := MappingAttr.inverse_eq_some hi
    rw [@compose_map_range _ ((p.iterationSpace operand.value.op).mapping.compose layout).useDomainSize
      _ (p.operandVolume owner operand) (communicationDims operand.mapping.size
        (p.iterationSpace operand.value.op) (p.iterationSpace owner)) rfl bound]
    exact (holeCount_map_inverseAt _ _).symm
  · rw [StorageAnalysis.addDimensionsToBuffer_of_some hb]
    simp only [Function.update_same]
    refine congrArg (fun rank => some { buffer with rank }) ?_
    simp only [MappingAttr.size_def, MappingAttr.dimensions_addPrefix, List.length_append,
      List.length_map, ← sized]
    exact Nat.add_comm _ _
  · rw [List.map_map]
    exact List.map_congr_left fun d mem =>
      perm.substituteDims_inverseAt (bound d (mem_unreadDims.mp mem).1)

theorem extendLayout_extension_crossProgram : ∃ (sa₁ sa₂ sa₃ : StorageAnalysis) (layout : MappingAttr),
    createBuffers crossProgram .empty = .ok sa₁ ∧ initializeStorages crossProgram sa₁ = .ok sa₂ ∧
    sa₂.WellFormed crossProgram ∧ LoopNestWellFormed (crossProgram.op crossOperand.value.op) ∧
    crossOperand.mapping.size ≤ (crossProgram.op crossOperand.value.op).domain.length ∧
    (sa₂.storages crossOperand.value).layout = some layout ∧
    covers crossProgram 1 crossOperand layout = false ∧
    extendLayout crossProgram sa₂ 1 crossOperand = .ok sa₃ ∧
    ∃ layoutToOperand name buffer,
      ((crossProgram.iterationSpace crossOperand.value.op).mapping.compose layout).inverse =
        some layoutToOperand ∧
      (crossProgram.unreadDims 1 crossOperand layout).length =
        holeCount (layoutToOperand.compose (crossProgram.operandVolume 1 crossOperand)).dimensions ∧
      (sa₂.storages crossOperand.value).bufferName = some name ∧ sa₂.buffers name = some buffer ∧
      buffer.isExternal = false ∧ layout.size = buffer.rank ∧
      sa₃.buffers name =
        some { buffer with rank := buffer.rank + (crossProgram.unreadDims 1 crossOperand layout).length } ∧
      (sa₃.storages crossOperand.value).layout = some (layout.addPrefix
        ((crossProgram.unreadDims 1 crossOperand layout).map
          (inverseAt (crossProgram.iterationSpace crossOperand.value.op).mapping.dimensions))) ∧
      (crossProgram.unreadDims 1 crossOperand layout).Nodup ∧
      ((crossProgram.unreadDims 1 crossOperand layout).map
          (inverseAt (crossProgram.iterationSpace crossOperand.value.op).mapping.dimensions)).map
          (·.substituteDims (crossProgram.iterationSpace crossOperand.value.op).mapping.dimensions) =
        (crossProgram.unreadDims 1 crossOperand layout).map dim ∧
      covers crossProgram 1 crossOperand (layout.addPrefix
        ((crossProgram.unreadDims 1 crossOperand layout).map
          (inverseAt (crossProgram.iterationSpace crossOperand.value.op).mapping.dimensions))) = true := by
  have wf := wellFormed_of_reflTransGen (StorageAnalysis.wellFormed_empty crossProgram)
    ((@createBuffers_reflTransGen crossProgram (fun _ _ => true) .empty _ rfl).trans
      (initializeStorages_reflTransGen rfl))
  exact ⟨_, _, _, _, rfl, rfl, wf, by decide, by decide, rfl, rfl, rfl,
    extendLayout_extension wf (by decide) (by decide) rfl rfl rfl⟩

variable {owner' : Nat} {operand' : ValueOperand}

/-- `ExtendLayout` on any operand keeps every covered operand covered. -/
theorem extendLayout_keeps_covered (wf : sa.WellFormed p)
    (perm : (p.iterationSpace operand'.value.op).mapping.IsPermutation)
    (rank' : operand'.mapping.size ≤ (p.op operand'.value.op).domain.length)
    (rank : operand.mapping.size ≤ (p.op operand.value.op).domain.length)
    (h : extendLayout p sa owner' operand' = .ok sa') (covered : Covered p sa owner operand) :
    Covered p sa' owner operand := by
  obtain ⟨layout, hl, determines⟩ := covered
  rw [covers_iff rank] at determines
  obtain ⟨layout', hl', ⟨rfl, -⟩ | ⟨-, extended, others⟩⟩ := extendLayout_layouts wf perm rank' h
  · exact ⟨layout, hl, (covers_iff rank).mpr determines⟩
  have bound : ∀ d ∈ communicationDims operand'.mapping.size (p.iterationSpace operand'.value.op)
      (p.iterationSpace owner'), d < (p.iterationSpace operand'.value.op).mapping.useDomainSize :=
    fun d mem => lt_of_mem_operandDims rank' mem
  by_cases same : operand.value = operand'.value
  · rw [← same] at hl' extended perm bound
    rw [hl, Option.some.injEq] at hl'
    subst hl'
    exact ⟨_, extended, (covers_iff rank).mpr ((determines.addPrefix_inverseAt perm
      (nodup_unreadDims p owner' operand' layout) (fun d mem => same ▸ (mem_unreadDims.mp mem).2)
      (fun d mem => bound d (same ▸ (mem_unreadDims.mp mem).1))).mono
        (List.subset_append_of_subset_right _ determines.mem))⟩
  · obtain ⟨k, moved⟩ := others operand.value same
    exact ⟨_, by rw [moved, hl]; rfl, (covers_iff rank).mpr (determines_addPrefix_unknown k determines)⟩

theorem makeLayoutFullySpecified_keeps_covered {value : Value}
    (rank : operand.mapping.size ≤ (p.op operand.value.op).domain.length)
    (h : makeLayoutFullySpecified sa value = .ok sa') (covered : Covered p sa owner operand) :
    Covered p sa' owner operand := by
  obtain ⟨layout, hl, determines⟩ := covered
  obtain ⟨layout', hl', rfl⟩ := makeLayoutFullySpecified_eq_ok h
  by_cases same : operand.value = value
  · subst same
    rw [hl, Option.some.injEq] at hl'
    subst hl'
    exact ⟨_, by simp, (covers_iff rank).mpr (determines_makeFullySpecified ((covers_iff rank).mp determines))⟩
  · exact ⟨layout, by simp [same, hl], determines⟩

theorem createBufferIfNeeded_layout (h : createBufferIfNeeded p sa owner' operand' = .ok sa')
    (w : Value) : (sa'.storages w).layout = (sa.storages w).layout := by
  rcases createBufferIfNeeded_eq_ok h with rfl | ⟨-, -, -, created⟩
  · rfl
  obtain ⟨merged, found, rfl⟩ := StorageAnalysis.createBuffer_eq_ok.mp created
  have kept := (ValueStorage.merge_eq_some.mp found).2.2
  simp only [mergeLayouts_none_right, Option.some.injEq] at kept
  by_cases same : w = operand'.value
  · subst same; simp [← kept]
  · simp [same]

theorem initializeStorage_layout {value : Value} (h : initializeStorage p sa value = .ok sa')
    {w : Value} {layout : MappingAttr} (hl : (sa.storages w).layout = some layout) :
    (sa'.storages w).layout = some layout := by
  obtain ⟨rank, rfl, -⟩ := initializeStorage_eq_ok h
  by_cases same : w = value
  · subst same; simp [hl]
  · simp [same, hl]

end

section

variable {p : Program} {verify : Program → StorageAnalysis → Bool} {sa sa' : StorageAnalysis}
  {owner : Nat} {operand : ValueOperand}
  (nests : ∀ op ∈ p.ops, LoopNestWellFormed op)
  (ranks : ∀ x ∈ p.valueOperands, x.2.mapping.size ≤ (p.op x.2.value.op).domain.length)
include nests ranks

/-- Every storage step keeps every covered operand covered. -/
theorem StorageStep.keeps_covered (wf : sa.WellFormed p) (step : StorageStep p verify sa sa')
    (rank : operand.mapping.size ≤ (p.op operand.value.op).domain.length)
    (covered : Covered p sa owner operand) : Covered p sa' owner operand := by
  cases step with
  | createBufferIfNeeded _ h =>
    obtain ⟨layout, hl, determines⟩ := covered
    exact ⟨layout, (createBufferIfNeeded_layout h _).trans hl, determines⟩
  | initializeStorage _ h =>
    obtain ⟨layout, hl, determines⟩ := covered
    exact ⟨layout, initializeStorage_layout h hl, determines⟩
  | extendLayout mem h =>
    exact extendLayout_keeps_covered wf (p.isPermutation_iterationSpace nests _) (ranks _ mem) rank h
      covered
  | makeLayoutFullySpecified _ h => exact makeLayoutFullySpecified_keeps_covered rank h covered
  | verifyStorage h =>
    obtain ⟨rfl, -⟩ := verifyStorage_eq_ok h
    exact covered

theorem covered_of_reflTransGen (wf : sa.WellFormed p)
    (run : Relation.ReflTransGen (StorageStep p verify) sa sa')
    (rank : operand.mapping.size ≤ (p.op operand.value.op).domain.length)
    (covered : Covered p sa owner operand) : Covered p sa' owner operand := by
  induction run with
  | refl => exact covered
  | tail run step ih =>
    exact step.keeps_covered nests ranks (wellFormed_of_reflTransGen wf run) rank ih

/-- Stage 3 covers every operand. -/
theorem extendLayouts_covered (wf : sa.WellFormed p) (h : extendLayouts p sa = .ok sa') :
    ∀ x ∈ p.valueOperands, Covered p sa' x.1 x.2 := by
  suffices walk : sa'.WellFormed p ∧ ∀ x ∈ p.valueOperands, Covered p sa' x.1 x.2 from walk.2
  refine foldlM_prefix (fun seen s => s.WellFormed p ∧ ∀ x ∈ seen, Covered p s x.1 x.2) h
    ⟨wf, by simp⟩ ?_
  rintro seen ⟨owner, operand⟩ s s' visited ⟨wfs, hold⟩ step
  have mem : (owner, operand) ∈ p.valueOperands := visited.subset (by simp)
  refine ⟨wfs.extendLayout step, fun x seenX => ?_⟩
  rcases List.mem_append.mp seenX with old | new
  · exact extendLayout_keeps_covered wfs (p.isPermutation_iterationSpace nests _) (ranks _ mem)
      (ranks x (visited.subset (List.mem_append_left _ old))) step (hold x old)
  · obtain rfl := List.mem_singleton.mp new
    exact extendLayout_covered wfs (p.isPermutation_iterationSpace nests _) (ranks _ mem) step

end

/-- When `RunOnProgram` succeeds, the final layout of every operand's value covers the operand's
communication volume: the buffer determines every communication dimension. So the layout, and
the buffer the value is stored in, have at least as many dimensions as the communication
volume; a register layout (no dimension) is only read along loops the producer and the consumer
share. -/
theorem operands_covered {p : Program} {verify : Program → StorageAnalysis → Bool}
    {sa₀ : StorageAnalysis} {p' : Program}
    (nests : ∀ op ∈ p.ops, LoopNestWellFormed op)
    (ranks : ∀ x ∈ p.valueOperands, x.2.mapping.size ≤ (p.op x.2.value.op).domain.length)
    (init : sa₀.WellFormed p) (success : runOnProgram p verify sa₀ = .ok p') :
    ∃ sa, storageStages p verify sa₀ = .ok sa ∧ commitStorages p sa = .ok p' ∧
      ∀ owner operand, (owner, operand) ∈ p.valueOperands →
        ∃ layout, (sa.storages operand.value).layout = some layout ∧
          covers p owner operand layout = true ∧
          (p.operandVolume owner operand).size ≤ layout.size ∧
          ∀ name, (sa.storages operand.value).bufferName = some name →
            ∃ buffer, sa.buffers name = some buffer ∧
              (p.operandVolume owner operand).size ≤ buffer.rank := by
  obtain ⟨sa, stages, commit⟩ := except_bind_eq_ok.mp success
  refine ⟨sa, stages, commit, fun owner operand mem => ?_⟩
  obtain ⟨sa₁, sa₂, sa₃, sa₄, h₁, h₂, h₃, h₄, h₅⟩ := storageStages_eq_ok stages
  have toThird : Relation.ReflTransGen (StorageStep p verify) sa₀ sa₂ :=
    (createBuffers_reflTransGen h₁).trans (initializeStorages_reflTransGen h₂)
  have wf₂ := wellFormed_of_reflTransGen init toThird
  have third : Relation.ReflTransGen (StorageStep p verify) sa₂ sa₃ := extendLayouts_reflTransGen h₃
  have toEnd : Relation.ReflTransGen (StorageStep p verify) sa₃ sa :=
    (makeLayoutsFullySpecified_reflTransGen h₄).tail (.verifyStorage h₅)
  have wf := wellFormed_of_reflTransGen init ((toThird.trans third).trans toEnd)
  obtain ⟨layout, hl, covered⟩ := covered_of_reflTransGen nests ranks
    (wellFormed_of_reflTransGen wf₂ third) toEnd (ranks _ mem)
    (extendLayouts_covered nests ranks wf₂ h₃ _ mem)
  have volume : (p.operandVolume owner operand).size ≤ layout.size := by
    simpa [Program.operandVolume, communicationVolume] using
      ((covers_iff (ranks _ mem)).mp covered).length_le (nodup_communicationDims _ _ _)
  refine ⟨layout, hl, covered, volume, fun name hn => ?_⟩
  obtain ⟨buffer, hb⟩ := Option.isSome_iff_exists.mp (wf.named _ name hn)
  exact ⟨buffer, hb, wf.rank _ layout name buffer hl hn hb ▸ volume⟩

theorem operands_covered_crossProgram : ∃ p',
    (∀ op ∈ crossProgram.ops, LoopNestWellFormed op) ∧
    (∀ x ∈ crossProgram.valueOperands,
      x.2.mapping.size ≤ (crossProgram.op x.2.value.op).domain.length) ∧
    runOnProgram crossProgram (fun _ _ => true) .empty = .ok p' ∧
    ∃ sa, storageStages crossProgram (fun _ _ => true) .empty = .ok sa ∧
      commitStorages crossProgram sa = .ok p' ∧
      ∀ owner operand, (owner, operand) ∈ crossProgram.valueOperands →
        ∃ layout, (sa.storages operand.value).layout = some layout ∧
          covers crossProgram owner operand layout = true ∧
          (crossProgram.operandVolume owner operand).size ≤ layout.size ∧
          ∀ name, (sa.storages operand.value).bufferName = some name →
            ∃ buffer, sa.buffers name = some buffer ∧
              (crossProgram.operandVolume owner operand).size ≤ buffer.rank :=
  ⟨_, by decide, by decide, rfl, operands_covered (by decide) (by decide)
    (StorageAnalysis.wellFormed_empty crossProgram) rfl⟩

/-! ## The buffer-name assertion -/

/-- Line 153: an operand whose layout does not cover its communication volume, of a value
without a buffer name, fails the assertion of `ExtendLayout`. -/
theorem extendLayout_eq_assertion {p : Program} {sa : StorageAnalysis} {owner : Nat}
    {operand : ValueOperand} {layout : MappingAttr}
    (hl : (sa.storages operand.value).layout = some layout)
    (uncovered : covers p owner operand layout = false)
    (unnamed : (sa.storages operand.value).bufferName = none)
    (invertible : ((p.iterationSpace operand.value.op).mapping.compose layout).inverse.isSome) :
    extendLayout p sa owner operand = .error (.crash bufferNameAssertion) := by
  obtain ⟨layoutToOperand, hi⟩ := Option.isSome_iff_exists.mp invertible
  have volume : communicationVolume operand.mapping.size (p.iterationSpace operand.value.op)
      (p.iterationSpace owner) = p.operandVolume owner operand := rfl
  simp only [covers, hi] at uncovered
  simp only [extendLayout, StorageAnalysis.getStorage, hl, hi, nonNull, bind, Except.bind, volume]
  simp [uncovered, unnamed, throw, throwThe, MonadExceptOf.throw, pure, Except.pure]

/-- A value made in loops `A, B` and read on its diagonal inside loop `A`. -/
def diagonalProgram : Program := ⟨[
  { domain := [default, default], operands := [], results := [true], isCompute := true,
    loopNest := some [⟨"A", dim 0⟩, ⟨"B", dim 1⟩], sequence := none, storage := [none] },
  { domain := [default], operands := [⟨⟨0, 0⟩, ⟨1, [dim 0, dim 0]⟩, false⟩], results := [],
    isCompute := true, loopNest := some [⟨"A", dim 0⟩], sequence := none, storage := [] }]⟩

/-- `FitsInRegisters` accepts the diagonal read, so stage 1 gives the value no buffer; stage 3
finds that its register layout does not cover the read and fails the assertion. -/
theorem diagonalProgram_fails_assertion (verify : Program → StorageAnalysis → Bool) :
    fitsInRegisters diagonalProgram 1 ⟨⟨0, 0⟩, ⟨1, [dim 0, dim 0]⟩, false⟩ = .ok true ∧
    runOnProgram diagonalProgram verify .empty = .error (.crash bufferNameAssertion) :=
  ⟨rfl, rfl⟩

end SairLowering
