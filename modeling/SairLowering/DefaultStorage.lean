import SairLowering.Storage

/-!
# Default storage

`DefaultStorage` and its helpers (`default_lowering_attributes.cc`, lines 47-323). Over the
operations of a program, in walk order: buffer assignment for operands that do not fit in
registers, default initialization, layout extension, layout finalization, verification, and
commit of a `BufferAttr` per result of every compute operation.
-/

namespace SairLowering

open MappingExpr (dim unknown)

/-- The assertion of `ExtendLayout` (lines 153-155). -/
def bufferNameAssertion : String :=
  "-default-storage-attribute pass should have added buffer names before reaching this point."

/-- The diagnostic of `ExtendLayout` for an external buffer (lines 158-160). -/
def externalRankError : String :=
  "specifying value layout would require to increase the rank of an external buffer"

/-- The diagnostic of `RunOnProgram` when verification fails (lines 309-311). -/
def storageVerificationError : String :=
  "unable to generate storage attributes, see other errors for more information"

/-- A null attribute used by the code. -/
def nonNull {α : Type} : Option α → Except Fault α
  | some a => .ok a
  | none => .error (.crash "null attribute")

section

variable (p : Program)

/-- `FitsInRegisters` (lines 80-91): the operand reads the value only along the loops its owner
shares with the value's defining operation. A failed `TranslateMapping` is a crash. -/
def fitsInRegisters (owner : Nat) (operand : ValueOperand) : Except Fault Bool := do
  let definingOp := operand.value.op
  let mapping ← match translateMapping (p.iterationSpace owner) (p.iterationSpace definingOp)
      (operand.mapping.resize (p.op definingOp).domain.length) with
    | some mapping => pure mapping
    | none => throw (.crash "TranslateMapping failed")
  let commonLoops := (p.iterationSpace owner).numCommonLoops (p.iterationSpace definingOp)
  pure (mapping.minDomainSize ≤ commonLoops)

/-- `InitializeStorage` (lines 93-126): memory space `register` and an all-`unknown` layout of
the buffer's rank, where they are not set yet. -/
def initializeStorage (sa : StorageAnalysis) (value : Value) : Except Fault StorageAnalysis := do
  let storage := sa.getStorage value
  let storage ← if storage.space.isNone then assertSuccess (storage.mergeSpace .register)
    else pure storage
  let storage ← if storage.layout.isNone then do
      let numDimensions ← match storage.bufferName with
        | none => pure 0
        | some name => (·.rank) <$> sa.getBuffer name
      let iterSpace := p.iterationSpace value.op
      assertSuccess (storage.mergeLayout
        ⟨iterSpace.mapping.size, List.replicate numDimensions unknown⟩)
    else pure storage
  sa.mergeStorage value storage

/-- Lines 163-183 of `ExtendLayout`: makes the layout cover the communication volume, puts the
new buffer dimensions in front and unifies the result with the old layout. Returns the number
of new dimensions and the new layout; `none` where the code would use a null attribute. -/
def extendedLayout (defMapping layout communicationVolume : MappingAttr) (rank : Nat)
    (layoutToCommunicationVolume : MappingAttr) : Option (Nat × MappingAttr) := do
  let extendedLayout := layoutToCommunicationVolume.makeSurjective
  let numNewDims := extendedLayout.useDomainSize - rank
  let newDimsIdentity := MappingAttr.identity numNewDims
  let permutation :=
    ((MappingAttr.identity rank).shiftRight numNewDims).addSuffix newDimsIdentity.dimensions
  let extendedLayout := permutation.compose extendedLayout
  let extendedOldLayout := layout.addPrefix (List.replicate numNewDims .none)
  let defInverse ← defMapping.inverse
  let extendedInverse ← extendedLayout.inverse
  let newLayout ←
    ((defInverse.compose communicationVolume).compose extendedInverse).unify extendedOldLayout
  pure (numNewDims, newLayout)

/-- `ExtendLayout` (lines 128-194): adds buffer dimensions to the operand's value layout when it
does not cover the operand's communication volume. -/
def extendLayout (sa : StorageAnalysis) (owner : Nat) (operand : ValueOperand) :
    Except Fault StorageAnalysis := do
  let storage := sa.getStorage operand.value
  let definingOp := operand.value.op
  let defIterSpace := p.iterationSpace definingOp
  let useIterSpace := p.iterationSpace owner
  let operandRank := operand.mapping.size
  let volume := communicationVolume operandRank defIterSpace useIterSpace
  let layout ← nonNull storage.layout
  let layoutToOperand ← nonNull (defIterSpace.mapping.compose layout).inverse
  let layoutToCommunicationVolume := layoutToOperand.compose volume
  if layoutToCommunicationVolume.isSurjective then return sa
  let bufferName ← match storage.bufferName with
    | some name => pure name
    | none => throw (.crash bufferNameAssertion)
  let buffer ← sa.getBuffer bufferName
  if buffer.isExternal then
    throw (.error externalRankError)
  let (_, newLayout) ← nonNull
    (extendedLayout defIterSpace.mapping layout volume buffer.rank layoutToCommunicationVolume)
  let sa := sa.addDimensionsToBuffer bufferName newLayout
  let newStorage ← assertSuccess ((sa.getStorage operand.value).mergeLayout newLayout)
  sa.mergeStorage operand.value newStorage

/-- `MakeLayoutFullySpecified` (lines 196-205). -/
def makeLayoutFullySpecified (sa : StorageAnalysis) (value : Value) :
    Except Fault StorageAnalysis := do
  let storage := sa.getStorage value
  let layout ← nonNull storage.layout
  let storage ← assertSuccess (storage.mergeLayout layout.makeFullySpecified)
  sa.mergeStorage value storage

/-- `CreateBufferIfNeeded` (lines 207-226). -/
def createBufferIfNeeded (sa : StorageAnalysis) (owner : Nat) (operand : ValueOperand) :
    Except Fault StorageAnalysis := do
  let storage := sa.getStorage operand.value
  if storage.space.isSome then return sa
  if ← fitsInRegisters p owner operand then return sa
  if operand.isIndex then
    throw (.error "cannot generate default storage for multi-dimensional index values")
  sa.createBuffer operand.value (p.iterationSpace owner).loopNames

/-- The operations that write or read a value stored in buffer `name`. -/
def bufferAccesses (sa : StorageAnalysis) (name : Nat) : List Nat :=
  ((p.valueResults.filter fun v => (sa.getStorage v).bufferName = some name).map (·.op)) ++
    ((p.valueOperands.filter fun (_, o) => (sa.getStorage o.value).bufferName = some name).map
      (·.1))

/-- Modelled from the spec: the minimization half of `VerifyAndMinimizeBufferLoopNests` shrinks
the loop nest of every buffer to the loops shared by every operation accessing it. -/
def minimizeBufferLoopNests (sa : StorageAnalysis) : StorageAnalysis :=
  { sa with
    buffers := fun name => (sa.buffers name).map fun buffer =>
      { buffer with
        loopNest := buffer.loopNest.take ((bufferAccesses p sa name).foldr
          (fun i n => min n (commonPrefixLength buffer.loopNest (p.iterationSpace i).loopNames))
          buffer.loopNest.length) } }

/-- Stage 5 (lines 305-312). `VerifyValuesNotOverwritten` and the verification half of
`VerifyAndMinimizeBufferLoopNests` only read the analyses; they are the parameter `verify`, so
that every result below holds whatever they check. -/
def verifyStorage (verify : Program → StorageAnalysis → Bool) (sa : StorageAnalysis) :
    Except Fault StorageAnalysis :=
  let sa := minimizeBufferLoopNests p sa
  if verify p sa then .ok sa
  else .error (.error storageVerificationError)

/-- The renaming of lines 60-68: the `j`-th loop the layout references becomes dimension `j`
and contributes its name. Reading `loop_names()[loop]` out of bounds is a crash. -/
def commitRenaming (iterSpace : IterationSpace) (indexedLoops : List Nat) :
    Except Fault (List MappingExpr × List LoopName) :=
  indexedLoops.foldlM
    (fun (renamed, loopNames) loop => do
      let name ← match iterSpace.loopNames[loop]? with
        | some name => pure name
        | none => throw (.crash "loop_names()[loop] out of bounds")
      pure (renamed.set loop (dim loopNames.length), loopNames ++ [name]))
    (List.replicate iterSpace.mapping.size .none, [])

/-- The `BufferAttr` committed for one result (lines 56-75). -/
def bufferAttrOf (iterSpace : IterationSpace) (storage : ValueStorage) :
    Except Fault BufferAttr := do
  let layout ← match storage.layout with
    | none => pure none
    | some layout => do
      let (renamed, loopNames) ← commitRenaming iterSpace layout.dependencyMask
      pure (some ⟨loopNames, (⟨loopNames.length, renamed⟩ : MappingAttr).compose layout⟩)
  pure ⟨storage.space, storage.bufferName, layout⟩

/-- `CommitStorage` (lines 47-78) for the operation at position `i`. -/
def commitStorage (sa : StorageAnalysis) (i : Nat) : Except Fault SairOp := do
  let op := p.op i
  let attrs ← (List.range op.results.length).mapM fun r =>
    bufferAttrOf (p.iterationSpace i) (sa.getStorage ⟨i, r⟩)
  pure { op with storage := attrs.map some }

/-- Stage 6 (lines 314-321): commit on every compute operation. -/
def commitStorages (sa : StorageAnalysis) : Except Fault Program := do
  let ops ← p.ops.enum.mapM fun (i, op) =>
    if op.isCompute then commitStorage p sa i else pure op
  pure ⟨ops⟩

/-- Stage 1 (lines 259-270): buffer names for the operands that do not fit in registers. -/
def createBuffers (sa : StorageAnalysis) : Except Fault StorageAnalysis :=
  p.valueOperands.foldlM (fun sa (owner, operand) => createBufferIfNeeded p sa owner operand) sa

/-- Stage 2 (lines 272-279): default space and layout of every value. -/
def initializeStorages (sa : StorageAnalysis) : Except Fault StorageAnalysis :=
  p.valueResults.foldlM (initializeStorage p) sa

/-- Stage 3 (lines 281-291): layouts extended to every operand's communication volume. -/
def extendLayouts (sa : StorageAnalysis) : Except Fault StorageAnalysis :=
  p.valueOperands.foldlM (fun sa (owner, operand) => extendLayout p sa owner operand) sa

/-- Stage 4 (lines 293-303): `unknown` layout entries become `none`. -/
def makeLayoutsFullySpecified (sa : StorageAnalysis) : Except Fault StorageAnalysis :=
  p.valueResults.foldlM makeLayoutFullySpecified sa

/-- Stages 1 to 5 of `RunOnProgram` (lines 253-312): the analysis state that is committed. -/
def storageStages (verify : Program → StorageAnalysis → Bool) (sa : StorageAnalysis) :
    Except Fault StorageAnalysis := do
  let sa ← createBuffers p sa
  let sa ← initializeStorages p sa
  let sa ← extendLayouts p sa
  let sa ← makeLayoutsFullySpecified p sa
  verifyStorage p verify sa

/-- `DefaultStorage::RunOnProgram` (lines 253-322) from the program's storage analysis `sa`. -/
def runOnProgram (verify : Program → StorageAnalysis → Bool) (sa : StorageAnalysis) :
    Except Fault Program :=
  storageStages p verify sa >>= commitStorages p

/-- `DefaultStorage::runOnFunction` (lines 233-250) on one program: every compute operation
needs a `loop_nest` attribute. -/
def defaultStorage (verify : Program → StorageAnalysis → Bool) (sa : StorageAnalysis) :
    Except Fault Program :=
  if p.ops.all fun op => !op.isCompute || op.loopNest.isSome then runOnProgram p verify sa
  else .error (.error "expected a loop-nest attribute")

end

end SairLowering
