import SairLowering.Coverage

/-!
# Committing the layouts

`CommitStorage` (lines 47-78) renames the dimensions of the iteration space a layout references
to the loops of the operation and writes one `BufferAttr` per result; over every compute
operation it is the only write `RunOnProgram` makes to the program, after stages 1 to 5. Its
reads `renaming[loop]` and `loop_names()[loop]` assume that a layout references only dimensions
that are loops.

Results:
1. `StorageAnalysis.LayoutsInRange`: a layout references only dimensions of its use domain;
   `layoutsInRange_of_reflTransGen`: every storage step keeps it.
2. `commitRenaming_eq`, `compose_renamingOf`: the renaming in closed form, and reading the
   committed layout back through the referenced dimensions gives the layout.
3. `commitStorage_renames_loops`: on an operation whose loop nest covers its domain,
   `CommitStorage` succeeds and writes every layout renamed to the loops it references, in
   increasing order, losing nothing.
4. `runOnProgram_all_or_nothing`: when stages 1 to 5 fail nothing is committed, and a diagnostic
   of theirs is one of their three messages; when the loop nest of every compute operation covers
   its domain the commit cannot fail, so `RunOnProgram` fails exactly when stages 1 to 5 do.
5. `partialNestProgram_reads_past_loops`, `partialNestProgram_commits_partially`: a compute
   operation whose loop nest leaves a dimension of its domain free, as the iteration spaces of
   the spec allow, makes the commit read past the loop names after every check has passed and
   after the storage of an earlier operation was written.
-/

namespace SairLowering

open MappingExpr (dim unknown)

/-! ## Layouts reference their use domain -/

/-- Every stored layout references only dimensions of its use domain, as the verifier of
`MappingAttr` checks for the layouts already in the program. -/
def StorageAnalysis.LayoutsInRange (sa : StorageAnalysis) : Prop :=
  ∀ v layout, (sa.storages v).layout = some layout → layout.InRange

theorem extendedLayout_inRange {defMapping layout volume toVolume newLayout : MappingAttr}
    {rank numNewDims : Nat}
    (h : extendedLayout defMapping layout volume rank toVolume = some (numNewDims, newLayout))
    (inRange : layout.InRange) : newLayout.InRange := by
  simp only [extendedLayout, Option.bind_eq_bind, Option.bind_eq_some, Option.pure_def,
    Option.some.injEq, Prod.mk.injEq] at h
  obtain ⟨_, defInverse, extended, _, merged, unified, -, rfl⟩ := h
  exact (((MappingAttr.inRange_of_inverse defInverse).compose volume).compose extended).unify
    unified (inRange.addPrefix (by simp))

namespace StorageAnalysis.LayoutsInRange

variable {p : Program} {sa sa' : StorageAnalysis} (inRange : sa.LayoutsInRange)
include inRange

theorem update {v : Value} {t : ValueStorage}
    (ht : ∀ layout, t.layout = some layout → layout.InRange) :
    ({ sa with storages := Function.update sa.storages v t } : StorageAnalysis).LayoutsInRange := by
  intro w layout hl
  by_cases same : w = v
  · subst same; exact ht layout (by simpa using hl)
  · exact inRange w layout (by simpa [same] using hl)

theorem addDimensionsToBuffer (name : Nat) (newLayout : MappingAttr) :
    (sa.addDimensionsToBuffer name newLayout).LayoutsInRange := by
  unfold StorageAnalysis.addDimensionsToBuffer
  split
  · exact inRange
  · intro v layout hl
    dsimp only at hl
    split at hl
    · obtain ⟨old, hold, rfl⟩ := Option.map_eq_some'.mp hl
      exact (inRange v old hold).addPrefix (by simp)
    · exact inRange v layout hl

theorem extendLayout {owner : Nat} {operand : ValueOperand}
    (h : SairLowering.extendLayout p sa owner operand = .ok sa') : sa'.LayoutsInRange := by
  obtain ⟨layout, hl, ⟨-, rfl⟩ | ⟨_, name, _, _, newLayout, newStorage, -, -, -, -, -,
    extended, merged, rfl⟩⟩ := extendLayout_eq_ok h
  · exact inRange
  have grown := inRange.addDimensionsToBuffer name newLayout
  have fresh := extendedLayout_inRange extended (inRange _ layout hl)
  obtain ⟨result, rfl, fits⟩ := ValueStorage.mergeLayout_eq_some merged
  refine grown.update fun _ found => ?_
  cases found
  rcases fits with ⟨-, rfl⟩ | ⟨old, hold, unified⟩
  · exact fresh
  · exact (grown _ old hold).unify unified fresh

theorem storageStep {verify : Program → StorageAnalysis → Bool}
    (step : StorageStep p verify sa sa') : sa'.LayoutsInRange := by
  cases step with
  | createBufferIfNeeded _ h =>
    exact fun v layout hl => inRange v layout ((createBufferIfNeeded_layout h v).symm.trans hl)
  | @initializeStorage value _ h =>
    obtain ⟨rank, rfl, -⟩ := initializeStorage_eq_ok h
    refine inRange.update fun layout hl => ?_
    cases hs : (sa.storages value).layout with
    | some old =>
      simp only [hs, Option.or_some, Option.some.injEq] at hl
      exact hl ▸ inRange _ old hs
    | none =>
      simp only [hs, Option.none_or, Option.some.injEq] at hl
      subst hl
      intro d mem
      simp [List.mem_replicate] at mem
  | extendLayout _ h => exact inRange.extendLayout h
  | makeLayoutFullySpecified _ h =>
    obtain ⟨layout, hl, rfl⟩ := makeLayoutFullySpecified_eq_ok h
    exact inRange.update fun _ found =>
      (Option.some.inj found) ▸ (inRange _ layout hl).makeFullySpecified
  | verifyStorage h =>
    obtain ⟨rfl, -⟩ := verifyStorage_eq_ok h
    exact inRange

end StorageAnalysis.LayoutsInRange

theorem layoutsInRange_of_reflTransGen {p : Program} {verify : Program → StorageAnalysis → Bool}
    {sa sa' : StorageAnalysis} (inRange : sa.LayoutsInRange)
    (run : Relation.ReflTransGen (StorageStep p verify) sa sa') : sa'.LayoutsInRange := by
  induction run with
  | refl => exact inRange
  | tail _ step ih => exact ih.storageStep step

theorem StorageAnalysis.layoutsInRange_empty : StorageAnalysis.empty.LayoutsInRange :=
  fun _ _ none => by cases none

/-! ## The renaming -/

/-- The renaming `CommitStorage` has built after the loops `seen` (lines 60-66): dimension `d` of
the iteration space becomes the position of `d` in `seen`, the others `none`. -/
def renamingOf (size : Nat) (seen : List Nat) : List MappingExpr :=
  (List.range size).map fun d => if d ∈ seen then dim (seen.indexOf d) else .none

theorem set_renamingOf {size x : Nat} {seen : List Nat} (fresh : x ∉ seen) :
    (renamingOf size seen).set x (dim seen.length) = renamingOf size (seen ++ [x]) := by
  refine List.ext_getElem? fun j => ?_
  simp only [renamingOf, List.getElem?_set, List.length_map, List.length_range, List.getElem?_map]
  by_cases bound : j < size
  · rw [List.getElem?_range bound]
    by_cases same : x = j
    · subst same; simp [bound, List.indexOf_append_of_not_mem fresh]
    · by_cases seenJ : j ∈ seen <;> simp [same, seenJ, List.indexOf_append_of_mem, Ne.symm same]
  · have outside : (List.range size)[j]? = none := List.getElem?_eq_none (by simpa using bound)
    by_cases same : x = j <;> simp [outside, same, bound]

/-- `CommitStorage`'s renaming of the loops a layout references, when they are distinct loops of
the iteration space: the `j`-th of them becomes dimension `j` and contributes its name. -/
theorem commitRenaming_eq {iterSpace : IterationSpace} {indexedLoops : List Nat}
    (nodup : indexedLoops.Nodup) (loops : ∀ loop ∈ indexedLoops, loop < iterSpace.numLoops) :
    commitRenaming iterSpace indexedLoops = .ok (renamingOf iterSpace.mapping.size indexedLoops,
      indexedLoops.map fun loop => iterSpace.loopNames.getD loop "") := by
  induction indexedLoops using List.reverseRecOn with
  | nil => simp [commitRenaming, renamingOf, pure, Except.pure, List.map_const']
  | append_singleton seen x ih =>
    have fresh : x ∉ seen := by simpa using (List.nodup_append.mp nodup).2.2
    have bound : x < iterSpace.loopNames.length := loops x (by simp)
    unfold commitRenaming at ih ⊢
    rw [List.foldlM_append,
      ih (List.nodup_append.mp nodup).1 fun loop mem => loops loop (by simp [mem])]
    simp only [bind, Except.bind, List.foldlM_cons, List.foldlM_nil, List.getElem?_eq_getElem bound,
      pure, Except.pure, List.length_map, set_renamingOf fresh, List.map_append, List.map_cons,
      List.map_nil, List.getD_eq_getElem?_getD, Option.getD_some]

/-- Reading the renamed layout back through the dimensions it references gives the layout: the
renaming substitutes no `none` for a dimension the layout references. -/
theorem compose_renamingOf {layout : MappingAttr} (inRange : layout.InRange) :
    (⟨layout.useDomainSize, layout.dependencyMask.map dim⟩ : MappingAttr).compose
      ((⟨layout.dependencyMask.length, renamingOf layout.useDomainSize layout.dependencyMask⟩ :
        MappingAttr).compose layout) = layout := by
  obtain ⟨use, dims⟩ := layout
  simp only [MappingAttr.compose, List.map_map, MappingAttr.mk.injEq, true_and]
  refine (List.map_congr_left fun e mem => ?_).trans (List.map_id dims)
  cases e with
  | dim d =>
    have bound : d < use := inRange d (mem_referencedDims.mpr mem)
    have masked : d ∈ MappingAttr.dependencyMask ⟨use, dims⟩ :=
      List.mem_filter.mpr ⟨List.mem_range.mpr bound, decide_eq_true mem⟩
    simp [renamingOf, MappingExpr.substituteDims, bound, masked,
      List.indexOf_lt_length.mpr masked, List.getElem_indexOf]
  | none | unknown => rfl

/-! ## The commit -/

theorem MappingAttr.nodup_dependencyMask (m : MappingAttr) : m.dependencyMask.Nodup :=
  (List.nodup_range _).filter _

/-- What `CommitStorage` writes for a storage whose layout references only loops of
`iterSpace`: the layout renamed to the loops it references, named in increasing order. -/
def renamedAttr (iterSpace : IterationSpace) (storage : ValueStorage) : BufferAttr :=
  ⟨storage.space, storage.bufferName, storage.layout.map fun layout =>
    ⟨layout.dependencyMask.map fun d => iterSpace.loopNames.getD d "",
      (⟨layout.dependencyMask.length, renamingOf iterSpace.mapping.size layout.dependencyMask⟩ :
        MappingAttr).compose layout⟩⟩

theorem bufferAttrOf_eq {iterSpace : IterationSpace} {storage : ValueStorage}
    (loops : ∀ layout, storage.layout = some layout →
      ∀ d ∈ layout.dependencyMask, d < iterSpace.numLoops) :
    bufferAttrOf iterSpace storage = .ok (renamedAttr iterSpace storage) := by
  unfold bufferAttrOf renamedAttr
  cases hl : storage.layout with
  | none => rfl
  | some layout =>
    simp only [commitRenaming_eq layout.nodup_dependencyMask (loops layout hl), bind,
      Except.bind, pure, Except.pure, List.length_map, Option.map_some']

theorem commitStorage_eq {p : Program} {sa : StorageAnalysis} {i : Nat}
    (loops : ∀ r layout, (sa.storages ⟨i, r⟩).layout = some layout →
      ∀ d ∈ layout.dependencyMask, d < (p.iterationSpace i).numLoops) :
    commitStorage p sa i = .ok { p.op i with
      storage := (List.range (p.op i).results.length).map fun r =>
        some (renamedAttr (p.iterationSpace i) (sa.storages ⟨i, r⟩)) } := by
  simp only [commitStorage, StorageAnalysis.getStorage]
  rw [mapM_eq_ok_map fun r _ => bufferAttrOf_eq (loops r)]
  simp only [bind, Except.bind, pure, Except.pure, List.map_map, Function.comp_def]

/-- A layout that reads the iteration space of an operation whose loop nest covers its domain
references only dimensions that are loops. -/
theorem dependencyMask_lt_numLoops {p : Program} {sa : StorageAnalysis} {i r : Nat}
    {layout : MappingAttr} (wf : sa.WellFormed p) (covering : LoopNestCovers (p.op i))
    (hl : (sa.storages ⟨i, r⟩).layout = some layout) {d : Nat}
    (mem : d ∈ layout.dependencyMask) :
    d < (p.iterationSpace i).mapping.size ∧ d < (p.iterationSpace i).numLoops := by
  have use : layout.useDomainSize = (p.iterationSpace i).mapping.size := wf.useDomain _ layout hl
  have bound : d < (p.iterationSpace i).mapping.size :=
    use ▸ List.mem_range.mp (List.mem_filter.mp mem).1
  exact ⟨bound, (numLoops_iterationSpace covering).symm ▸ bound⟩

/-- After stages 1 to 5, `CommitStorage` on an operation whose loop nest covers its domain
succeeds. Every dimension a layout references is a loop, the committed layout names the loops
it references in increasing order, and reading it back through them gives the layout. -/
theorem commitStorage_renames_loops {p : Program} {verify : Program → StorageAnalysis → Bool}
    {sa₀ sa : StorageAnalysis} {i : Nat} (wf : sa₀.WellFormed p)
    (inRange : sa₀.LayoutsInRange) (stages : storageStages p verify sa₀ = .ok sa)
    (covering : LoopNestCovers (p.op i)) :
    ∃ op, commitStorage p sa i = .ok op ∧ ∀ r < (p.op i).results.length, ∀ layout,
      (sa.storages ⟨i, r⟩).layout = some layout →
      (∀ d ∈ layout.dependencyMask,
        d < (p.iterationSpace i).mapping.size ∧ d < (p.iterationSpace i).numLoops) ∧
      ∃ mapping, op.storage[r]? = some (some ⟨(sa.storages ⟨i, r⟩).space,
          (sa.storages ⟨i, r⟩).bufferName,
          some ⟨layout.dependencyMask.map fun d => (p.iterationSpace i).loopNames.getD d "",
            mapping⟩⟩) ∧
        mapping.useDomainSize = layout.dependencyMask.length ∧
        (⟨layout.useDomainSize, layout.dependencyMask.map dim⟩ : MappingAttr).compose mapping =
          layout := by
  have run := storageStages_reflTransGen stages
  have wf := wellFormed_of_reflTransGen wf run
  have inRange := layoutsInRange_of_reflTransGen inRange run
  refine ⟨_, commitStorage_eq fun r layout hl d mem =>
      (dependencyMask_lt_numLoops wf covering hl mem).2,
    fun r within layout hl => ⟨fun d mem => dependencyMask_lt_numLoops wf covering hl mem,
      (⟨layout.dependencyMask.length, renamingOf (p.iterationSpace i).mapping.size
        layout.dependencyMask⟩ : MappingAttr).compose layout, ?_, rfl, ?_⟩⟩
  · simp [within, renamedAttr, hl]
  · have use : layout.useDomainSize = (p.iterationSpace i).mapping.size := wf.useDomain _ layout hl
    rw [← use]
    exact compose_renamingOf (inRange _ layout hl)

theorem commitStorage_renames_loops_crossProgram : ∃ sa : StorageAnalysis,
    StorageAnalysis.empty.WellFormed crossProgram ∧ StorageAnalysis.empty.LayoutsInRange ∧
    storageStages crossProgram (fun _ _ => true) .empty = .ok sa ∧
    LoopNestCovers (crossProgram.op 0) ∧
    ∃ op, commitStorage crossProgram sa 0 = .ok op ∧ ∀ r < (crossProgram.op 0).results.length,
      ∀ layout, (sa.storages ⟨0, r⟩).layout = some layout →
      (∀ d ∈ layout.dependencyMask, d < (crossProgram.iterationSpace 0).mapping.size ∧
        d < (crossProgram.iterationSpace 0).numLoops) ∧
      ∃ mapping, op.storage[r]? = some (some ⟨(sa.storages ⟨0, r⟩).space,
          (sa.storages ⟨0, r⟩).bufferName,
          some ⟨layout.dependencyMask.map fun d =>
            (crossProgram.iterationSpace 0).loopNames.getD d "", mapping⟩⟩) ∧
        mapping.useDomainSize = layout.dependencyMask.length ∧
        (⟨layout.useDomainSize, layout.dependencyMask.map dim⟩ : MappingAttr).compose mapping =
          layout :=
  ⟨_, StorageAnalysis.wellFormed_empty crossProgram, StorageAnalysis.layoutsInRange_empty, rfl,
    by decide, @commitStorage_renames_loops crossProgram (fun _ _ => true) _ _ 0
      (StorageAnalysis.wellFormed_empty crossProgram) StorageAnalysis.layoutsInRange_empty rfl
      (by decide)⟩

/-- The value made in `crossProgram`'s loops `A, B` is stored along `B`: its committed layout
names loop `B` only. -/
example : (storageStages crossProgram (fun _ _ => true) .empty >>= fun sa =>
    commitStorage crossProgram sa 0) = .ok { crossProgram.op 0 with
      storage := [some ⟨some .memory, some 0, some ⟨["B"], ⟨1, [dim 0]⟩⟩⟩] } := by
  rfl

/-- A compute operation in no loop over a one-dimensional domain: its iteration space has one
free dimension and no loop. The third operation reads its value in loop `A`, which gives the
value a buffer of rank one along that dimension. -/
def partialNestProgram : Program := ⟨[
  { domain := [default], operands := [], results := [true], isCompute := true,
    loopNest := some [⟨"A", dim 0⟩], sequence := none, storage := [none] },
  { domain := [default], operands := [], results := [true], isCompute := true,
    loopNest := some [], sequence := none, storage := [none] },
  { domain := [default], operands := [⟨⟨1, 0⟩, ⟨1, [dim 0]⟩, false⟩], results := [],
    isCompute := true, loopNest := some [⟨"A", dim 0⟩], sequence := none, storage := [] }]⟩

theorem partialNestProgram_reads_past_loops : ∃ sa : StorageAnalysis,
    storageStages partialNestProgram (fun _ _ => true) .empty = .ok sa ∧
    (partialNestProgram.op 1).isCompute = true ∧
    (sa.storages ⟨1, 0⟩).layout = some ⟨1, [dim 0]⟩ ∧
    (partialNestProgram.iterationSpace 1).mapping.size = 1 ∧
    (partialNestProgram.iterationSpace 1).numLoops = 0 ∧
    commitStorage partialNestProgram sa 1 = .error (.crash "loop_names()[loop] out of bounds") :=
  ⟨_, rfl, rfl, rfl, rfl, rfl, rfl⟩

/-! ## What the stages can report -/

/-- Every diagnostic `x` can return is one of `messages`; a crash is not a diagnostic. -/
def Diagnoses {α : Type} (messages : List String) (x : Except Fault α) : Prop :=
  ∀ message, x = .error (.error message) → message ∈ messages

namespace Diagnoses

variable {α β : Type} {messages : List String}

theorem ok (a : α) : Diagnoses messages (pure a : Except Fault α) := fun _ h => by cases h

theorem crash (reason : String) : Diagnoses messages (throw (.crash reason) : Except Fault α) :=
  fun _ h => by cases h

theorem error {message : String} (mem : message ∈ messages) :
    Diagnoses messages (throw (.error message) : Except Fault α) :=
  fun _ h => by cases h; exact mem

theorem bind {x : Except Fault α} {f : α → Except Fault β} (hx : Diagnoses messages x)
    (hf : ∀ a, Diagnoses messages (f a)) : Diagnoses messages (x >>= f) := by
  cases x with
  | error e => intro m h; cases h; exact hx m rfl
  | ok a => exact hf a

theorem map {x : Except Fault α} (f : α → β) (hx : Diagnoses messages x) :
    Diagnoses messages (f <$> x) := by
  cases x with
  | error e => intro m h; cases h; exact hx m rfl
  | ok a => exact ok (f a)

theorem mono {messages' : List String} {x : Except Fault α} (hx : Diagnoses messages x)
    (sub : messages ⊆ messages') : Diagnoses messages' x :=
  fun m h => sub (hx m h)

theorem foldlM {f : β → α → Except Fault β} (step : ∀ s a, Diagnoses messages (f s a)) :
    ∀ (l : List α) (init : β), Diagnoses messages (l.foldlM f init)
  | [], init => ok init
  | a :: l, init => by rw [List.foldlM_cons]; exact (step init a).bind fun s => foldlM step l s

theorem assertSuccess (a : Option α) : Diagnoses messages (SairLowering.assertSuccess a) := by
  cases a <;> exact fun _ h => by cases h

theorem nonNull (a : Option α) : Diagnoses messages (SairLowering.nonNull a) := by
  cases a <;> exact fun _ h => by cases h

theorem getBuffer (sa : StorageAnalysis) (name : Nat) : Diagnoses messages (sa.getBuffer name) := by
  unfold StorageAnalysis.getBuffer; split <;> exact fun _ h => by cases h

theorem mergeStorage (sa : StorageAnalysis) (v : Value) (s : ValueStorage) :
    Diagnoses messages (sa.mergeStorage v s) := by
  unfold StorageAnalysis.mergeStorage; split <;> exact fun _ h => by cases h

end Diagnoses

section

variable (p : Program) (sa : StorageAnalysis)

/-- `FitsInRegisters` only crashes, on a failed `TranslateMapping`. -/
theorem diagnoses_fitsInRegisters (owner : Nat) (operand : ValueOperand) :
    Diagnoses [] (fitsInRegisters p owner operand) := by
  unfold fitsInRegisters
  dsimp only
  split
  · exact .bind (.ok _) fun _ => .ok _
  · exact .bind (.crash _) fun _ => .ok _

/- The walks below follow the `do` blocks of the source: a bind, a branch, or a leaf that only
crashes. Matching at reducible transparency keeps a failed match from unfolding the leaves. -/

theorem diagnoses_createBufferIfNeeded (owner : Nat) (operand : ValueOperand) :
    Diagnoses ["cannot generate default storage for multi-dimensional index values"]
      (createBufferIfNeeded p sa owner operand) := by
  unfold createBufferIfNeeded StorageAnalysis.createBuffer
  dsimp only
  with_reducible repeat' first
    | refine .bind ?_ fun _ => ?_ | split
    | exact .ok _ | exact .crash _ | exact .error (List.mem_singleton_self _)
    | exact .mergeStorage _ _ _ | exact (diagnoses_fitsInRegisters p owner operand).mono (by simp)

theorem diagnoses_initializeStorage (value : Value) :
    Diagnoses [] (initializeStorage p sa value) := by
  unfold initializeStorage
  dsimp only
  with_reducible repeat' first
    | refine .bind ?_ fun _ => ?_ | split
    | exact .ok _ | exact .assertSuccess _ | exact .mergeStorage _ _ _
    | exact .map _ (.getBuffer _ _)

theorem diagnoses_extendLayout (owner : Nat) (operand : ValueOperand) :
    Diagnoses [externalRankError] (extendLayout p sa owner operand) := by
  unfold extendLayout
  dsimp only
  with_reducible repeat' first
    | refine .bind ?_ fun _ => ?_ | split
    | exact .ok _ | exact .crash _ | exact .error (List.mem_singleton_self _)
    | exact .nonNull _ | exact .assertSuccess _ | exact .getBuffer _ _ | exact .mergeStorage _ _ _

theorem diagnoses_makeLayoutFullySpecified (value : Value) :
    Diagnoses [] (makeLayoutFullySpecified sa value) :=
  .bind (.nonNull _) fun _ => .bind (.assertSuccess _) fun _ => .mergeStorage _ _ _

/-- Stages 1 to 5 report only their three diagnostics: an index value that needs a buffer, an
external buffer whose rank would grow, and a failed verification. -/
theorem diagnoses_storageStages (verify : Program → StorageAnalysis → Bool) :
    Diagnoses ["cannot generate default storage for multi-dimensional index values",
      externalRankError, storageVerificationError] (storageStages p verify sa) := by
  have verified : ∀ sa, Diagnoses [storageVerificationError] (verifyStorage p verify sa) := by
    intro sa m h
    simp only [verifyStorage] at h
    split at h <;> cases h
    exact List.mem_singleton_self _
  unfold storageStages createBuffers initializeStorages extendLayouts makeLayoutsFullySpecified
  exact .bind (.mono (.foldlM (fun sa ⟨owner, operand⟩ =>
      diagnoses_createBufferIfNeeded p sa owner operand) _ _) (by simp)) fun _ =>
    .bind (.mono (.foldlM (diagnoses_initializeStorage p) _ _) (by simp)) fun _ =>
    .bind (.mono (.foldlM (fun sa ⟨owner, operand⟩ => diagnoses_extendLayout p sa owner operand)
      _ _) (by simp)) fun _ =>
    .bind (.mono (.foldlM diagnoses_makeLayoutFullySpecified _ _) (by simp)) fun sa =>
    (verified sa).mono (by simp)

end

/-! ## All or nothing -/

/-- When the loop nest of every compute operation covers its domain, committing a well-formed
analysis cannot fail. -/
theorem exists_commitStorages_eq_ok {p : Program} {sa : StorageAnalysis} (wf : sa.WellFormed p)
    (covering : ∀ i < p.ops.length, (p.op i).isCompute = true → LoopNestCovers (p.op i)) :
    ∃ p', commitStorages p sa = .ok p' := by
  cases h : commitStorages p sa with
  | ok p' => exact ⟨p', rfl⟩
  | error e =>
    unfold commitStorages at h
    rcases except_bind_eq_error.mp h with failed | ⟨_, -, done⟩
    · obtain ⟨⟨i, op⟩, mem, failed⟩ := mapM_eq_error failed
      have found : p.ops[i]? = some op := List.mem_enum_iff_getElem?.mp mem
      have bound : i < p.ops.length := (List.getElem?_eq_some_iff.mp found).1
      have same : p.op i = op := Program.op_of_getElem? found
      dsimp only at failed
      split at failed
      · next compute =>
        have covers := covering i bound (same ▸ compute)
        rw [commitStorage_eq fun r layout hl d mem =>
          (dependencyMask_lt_numLoops wf covers hl mem).2] at failed
        cases failed
      · cases failed
    · cases done

/-- The commit only writes storage attributes. -/
theorem commitStorages_op {p p' : Program} {sa : StorageAnalysis}
    (h : commitStorages p sa = .ok p') (i : Nat) :
    p'.op i = { p.op i with storage := (p'.op i).storage } := by
  obtain ⟨same, each⟩ := commitStorages_eq_ok h
  by_cases bound : i < p.ops.length
  · rcases each i bound with ⟨-, kept⟩ | ⟨-, committed⟩
    · rw [kept]
    · obtain ⟨attrs, committed, -⟩ := commitStorage_eq_ok committed
      rw [committed]
  · have outside : p'.ops.length ≤ i := by omega
    simp only [Program.op, List.getD_eq_getElem?_getD, List.getElem?_eq_none outside,
      List.getElem?_eq_none (Nat.le_of_not_lt bound), Option.getD_none]

/-- When stages 1 to 5 fail, `RunOnProgram` returns their failure and never commits, and a
diagnostic of theirs is one of their three. When moreover the analysis it starts from is
consistent with the program and the loop nest of every compute operation covers its domain, the
commit cannot fail: `RunOnProgram` fails exactly when stages 1 to 5 do, and otherwise changes
only storage attributes. -/
theorem runOnProgram_all_or_nothing {p : Program} {verify : Program → StorageAnalysis → Bool}
    {sa₀ : StorageAnalysis} :
    (∀ e, storageStages p verify sa₀ = .error e → runOnProgram p verify sa₀ = .error e) ∧
    (∀ message, storageStages p verify sa₀ = .error (.error message) →
      message = "cannot generate default storage for multi-dimensional index values" ∨
        message = externalRankError ∨ message = storageVerificationError) ∧
    (sa₀.WellFormed p →
      (∀ i < p.ops.length, (p.op i).isCompute = true → LoopNestCovers (p.op i)) →
      (∀ e, runOnProgram p verify sa₀ = .error e → storageStages p verify sa₀ = .error e) ∧
      ∀ sa, storageStages p verify sa₀ = .ok sa → ∃ p', commitStorages p sa = .ok p' ∧
        runOnProgram p verify sa₀ = .ok p' ∧ p'.ops.length = p.ops.length ∧
        ∀ i, p'.op i = { p.op i with storage := (p'.op i).storage }) := by
  refine ⟨fun e failed => by simp [runOnProgram, failed, bind, Except.bind], fun message failed => by
    simpa using diagnoses_storageStages p sa₀ verify message failed, fun wf covering => ?_⟩
  have commits : ∀ sa, storageStages p verify sa₀ = .ok sa →
      ∃ p', commitStorages p sa = .ok p' :=
    fun sa stages => exists_commitStorages_eq_ok
      (wellFormed_of_reflTransGen wf (storageStages_reflTransGen stages)) covering
  refine ⟨fun e failed => ?_, fun sa stages => ?_⟩
  · cases stages : storageStages p verify sa₀ with
    | error e' => simpa [runOnProgram, stages, bind, Except.bind] using failed
    | ok sa =>
      obtain ⟨p', committed⟩ := commits sa stages
      simp [runOnProgram, stages, bind, Except.bind, committed] at failed
  · obtain ⟨p', committed⟩ := commits sa stages
    exact ⟨p', committed, by simp [runOnProgram, stages, bind, Except.bind, committed],
      (commitStorages_eq_ok committed).1, commitStorages_op committed⟩

theorem runOnProgram_all_or_nothing_crossProgram :
    StorageAnalysis.empty.WellFormed crossProgram ∧
    (∀ i < crossProgram.ops.length, (crossProgram.op i).isCompute = true →
      LoopNestCovers (crossProgram.op i)) ∧
    (∀ e, runOnProgram crossProgram (fun _ _ => true) .empty = .error e →
      storageStages crossProgram (fun _ _ => true) .empty = .error e) ∧
    ∀ sa, storageStages crossProgram (fun _ _ => true) .empty = .ok sa →
      ∃ p', commitStorages crossProgram sa = .ok p' ∧
        runOnProgram crossProgram (fun _ _ => true) .empty = .ok p' ∧
        p'.ops.length = crossProgram.ops.length ∧
        ∀ i, p'.op i = { crossProgram.op i with storage := (p'.op i).storage } :=
  ⟨StorageAnalysis.wellFormed_empty crossProgram, by decide,
    (runOnProgram_all_or_nothing.2.2 (StorageAnalysis.wellFormed_empty crossProgram) (by decide))⟩

theorem partialNestProgram_commits_partially : ∃ (sa : StorageAnalysis) (op : SairOp),
    storageStages partialNestProgram (fun _ _ => true) .empty = .ok sa ∧
    commitStorage partialNestProgram sa 0 = .ok op ∧
    op.storage ≠ (partialNestProgram.op 0).storage ∧
    commitStorage partialNestProgram sa 1 = .error (.crash "loop_names()[loop] out of bounds") ∧
    runOnProgram partialNestProgram (fun _ _ => true) .empty =
      .error (.crash "loop_names()[loop] out of bounds") :=
  ⟨_, _, rfl, rfl, by decide, rfl, rfl⟩

end SairLowering
