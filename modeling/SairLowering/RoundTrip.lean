import SairLowering.Fixpoint
import SairLowering.PipelineCommit

/-!
# Running the pipeline on its own output

The passes read and write different attributes of an operation. The domain, the operands, the
results and whether the operation is a compute operation are read by every pass and written by
none; `UpdateSequence` writes the `sequence` attributes, `DefaultLoopNest` the `loop_nest`
attributes, and `CommitStorage` the storage attributes, which no pass reads. So a second run of
the pipeline on its output sees the program the first run saw after its own first two passes, up
to storage attributes: it finds the same sequence order, keeps every loop nest, and when the
storage analysis it starts from is the one the first run committed, it reaches that analysis
again and commits the output once more.

Results:
1. `Program.SameShape`, `Program.SameUpToStorage`: two programs whose operations agree on what
   no pass writes, and two that differ at most in their storage attributes.
2. `updateSequence_of_sequenced`: a program with the shapes and the numbers `UpdateSequence`
   gave is left as it is by another run.
3. `storageStages_congr`: stages 1 to 5 do not read storage attributes;
   `commitStorages_recommit`: committing an analysis to the program it was committed to rewrites
   nothing.
4. `preconditions_defaultLoopNest`: the first two passes keep what the storage pass assumes of
   loop nests and operand ranks.
5. `defaultLoweringPipeline_round_trip`: a second run of the pipeline on its output, from the
   analysis the first run committed, returns that output.
-/

namespace SairLowering

/-! ## What no pass writes -/

/-- What the passes read of an operation and never write: its domain, operands, results and
kind. -/
def SairOp.shape (op : SairOp) : List ValueAccess × List ValueOperand × List Bool × Bool :=
  (op.domain, op.operands, op.results, op.isCompute)

theorem Program.op_eq_default {p : Program} {i : Nat} (beyond : p.ops.length ≤ i) :
    p.op i = default := by
  simp [Program.op, List.getD_eq_getElem?_getD, List.getElem?_eq_none beyond]

theorem Program.forall_mem_ops {P : SairOp → Prop} {p : Program} :
    (∀ op ∈ p.ops, P op) ↔ ∀ i < p.ops.length, P (p.op i) := by
  refine ⟨fun each i within => ?_, fun each op mem => ?_⟩
  · rw [op_of_getElem? (List.getElem?_eq_getElem within)]
    exact each _ (List.getElem_mem within)
  · obtain ⟨i, within, rfl⟩ := List.getElem_of_mem mem
    rw [← op_of_getElem? (List.getElem?_eq_getElem within)]
    exact each i within

/-- The operations of `q` have the shapes of those of `p`. -/
structure Program.SameShape (q p : Program) : Prop where
  length : q.ops.length = p.ops.length
  shape : ∀ i, (q.op i).shape = (p.op i).shape

/-- `q` is `p` with other storage attributes. -/
structure Program.SameUpToStorage (q p : Program) : Prop where
  length : q.ops.length = p.ops.length
  op : ∀ i, q.op i = { p.op i with storage := (q.op i).storage }

namespace Program.SameShape

variable {p q r : Program}

theorem trans (h : r.SameShape q) (h' : q.SameShape p) : r.SameShape p :=
  ⟨h.length.trans h'.length, fun i => (h.shape i).trans (h'.shape i)⟩

variable (h : q.SameShape p)
include h

theorem domain (i : Nat) : (q.op i).domain = (p.op i).domain := congrArg (·.1) (h.shape i)

theorem operands (i : Nat) : (q.op i).operands = (p.op i).operands :=
  congrArg (·.2.1) (h.shape i)

theorem results (i : Nat) : (q.op i).results = (p.op i).results := congrArg (·.2.2.1) (h.shape i)

theorem isCompute (i : Nat) : (q.op i).isCompute = (p.op i).isCompute :=
  congrArg (·.2.2.2) (h.shape i)

theorem map_ops {β : Type} {f : SairOp → β}
    (same : ∀ i < p.ops.length, f (q.op i) = f (p.op i)) : q.ops.map f = p.ops.map f := by
  refine List.ext_getElem (by simp [h.length]) fun n within within' => ?_
  have found : ∀ r : Program, (within : n < r.ops.length) → r.op n = r.ops[n] :=
    fun r within => op_of_getElem? (List.getElem?_eq_getElem within)
  rw [List.length_map] at within within'
  simp only [List.getElem_map, ← found q within, ← found p within', same n within']

theorem valueOperands : q.valueOperands = p.valueOperands := by
  have view : ∀ r : Program, r.valueOperands =
      (r.ops.map SairOp.operands).enum.flatMap fun (i, os) => os.map ((i, ·)) := fun r => by
    rw [List.enum_map, List.flatMap_map]
    rfl
  rw [view, view, h.map_ops fun i _ => h.operands i]

theorem valueResults : q.valueResults = p.valueResults := by
  have view : ∀ r : Program, r.valueResults =
      (r.ops.map SairOp.results).enum.flatMap fun (i, rs) =>
        (rs.enum.filter (·.2)).map fun (k, _) => ⟨i, k⟩ := fun r => by
    rw [List.enum_map, List.flatMap_map]
    rfl
  rw [view, view, h.map_ops fun i _ => h.results i]

end Program.SameShape

namespace Program.SameUpToStorage

variable {p q : Program} (h : q.SameUpToStorage p)
include h

theorem sameShape : q.SameShape p := ⟨h.length, fun i => by rw [h.op i]; rfl⟩

theorem iterationSpace_eq : q.iterationSpace = p.iterationSpace := funext fun i => by
  rw [Program.iterationSpace, h.op i]
  rfl

end Program.SameUpToStorage

/-! ## The sequence order -/

theorem sameShape_updateSequence {p : Program} : (updateSequence p).SameShape p :=
  ⟨length_updateSequence, fun i => by rw [updateSequence_frame i]; rfl⟩

/-- A program with the shapes and the `sequence` attributes `UpdateSequence` gave `p` is left as
it is by another `UpdateSequence`: it has the slices of `p`, and its numbers are the relative
indices of `p`. -/
theorem updateSequence_of_sequenced {p q : Program} (shape : q.SameShape (updateSequence p))
    (sequence : ∀ i, (q.op i).sequence = ((updateSequence p).op i).sequence) :
    updateSequence q = q := by
  have original := shape.trans sameShape_updateSequence
  have frontier : backwardFrontier q = backwardFrontier p :=
    backwardFrontier_congr original.length
      (fun i => by simp only [Program.producers, original.operands]) original.isCompute
  exact updateSequence_of_renumbered (computeOps_congr original.length original.isCompute)
    (slice_congr original.length frontier) fun w hw => (sequence w).trans (sequence_updateSequence hw)

/-! ## The storage pass does not read storage attributes -/

section

variable {p q : Program} (h : q.SameUpToStorage p)
include h

theorem fitsInRegisters_congr : fitsInRegisters q = fitsInRegisters p := by
  funext owner operand
  simp only [fitsInRegisters, h.iterationSpace_eq, h.sameShape.domain]

theorem createBufferIfNeeded_congr : createBufferIfNeeded q = createBufferIfNeeded p := by
  funext sa owner operand
  simp only [createBufferIfNeeded, fitsInRegisters_congr h, h.iterationSpace_eq]

theorem initializeStorage_congr : initializeStorage q = initializeStorage p := by
  funext sa value
  simp only [initializeStorage, h.iterationSpace_eq]

theorem extendLayout_congr : extendLayout q = extendLayout p := by
  funext sa owner operand
  simp only [extendLayout, h.iterationSpace_eq]

theorem minimizeBufferLoopNests_congr : minimizeBufferLoopNests q = minimizeBufferLoopNests p := by
  funext sa
  simp only [minimizeBufferLoopNests, bufferAccesses, h.sameShape.valueResults,
    h.sameShape.valueOperands, h.iterationSpace_eq]

/-- Stages 1 to 5 read no storage attribute of the program. -/
theorem storageStages_congr {verify verify' : Program → StorageAnalysis → Bool}
    (verified : verify' q = verify p) : storageStages q verify' = storageStages p verify := by
  funext sa
  simp only [storageStages, createBuffers, initializeStorages, extendLayouts,
    makeLayoutsFullySpecified, verifyStorage, createBufferIfNeeded_congr h,
    initializeStorage_congr h, extendLayout_congr h, minimizeBufferLoopNests_congr h,
    h.sameShape.valueResults, h.sameShape.valueOperands, verified]

end

/-- Committing an analysis to the program it was committed to writes the attributes that are
already there. -/
theorem commitStorages_recommit {p out : Program} {sa : StorageAnalysis}
    (h : commitStorages p sa = .ok out) : commitStorages out sa = .ok out := by
  obtain ⟨length, each⟩ := commitStorages_eq_ok h
  have same : out.SameUpToStorage p := ⟨length, commitStorages_op h⟩
  have again : ∀ i < out.ops.length, (out.op i).isCompute = true →
      commitStorage out sa i = .ok (out.op i) := fun i within compute => by
    have within' : i < p.ops.length := length ▸ within
    have compute' : (p.op i).isCompute = true := same.sameShape.isCompute i ▸ compute
    obtain ⟨attrs, committed, found⟩ :=
      commitStorage_eq_ok ((each i within').resolve_left fun ⟨plain, _⟩ =>
        Bool.noConfusion (compute'.symm.trans plain)).2
    have written : (List.range (out.op i).results.length).mapM
        (fun r => bufferAttrOf (out.iterationSpace i) (sa.getStorage ⟨i, r⟩)) = .ok attrs := by
      rw [same.sameShape.results, same.iterationSpace_eq]
      exact mapM_eq_ok.mpr found
    simp only [commitStorage, written, bind, Except.bind, pure, Except.pure]
    rw [committed]
  have ops : out.ops.enum.mapM (fun x : Nat × SairOp =>
      if x.2.isCompute then commitStorage out sa x.1 else pure x.2) = .ok out.ops := by
    conv_rhs => rw [← List.enum_map_snd out.ops]
    refine mapM_eq_ok_map fun ⟨i, op⟩ mem => ?_
    have found : out.ops[i]? = some op := List.mem_enum_iff_getElem?.mp mem
    have within : i < out.ops.length := (List.getElem?_eq_some_iff.mp found).1
    rw [← Program.op_of_getElem? found]
    dsimp only
    split
    · next compute => exact again i within compute
    · rfl
  simp only [commitStorages, ops, bind, Except.bind]
  rfl

/-! ## The second run -/

theorem defaultLoopNest_of_settled {p : Program}
    (settled : ∀ op ∈ p.ops, (op.isCompute && op.loopNest.isNone) = false) :
    defaultLoopNest p = .ok p := by
  simp only [defaultLoopNest, defaultLoopNestOps_settled _ settled, bind, Except.bind]
  rfl

/-- `DefaultLoopNest` rewrites at most the `loop_nest` attribute of each operation. -/
theorem defaultLoopNest_frame {q nested : Program}
    (defaulted : List.Forall₂ LoopNestDefaulted q.ops nested.ops) (i : Nat) :
    nested.op i = { q.op i with loopNest := (nested.op i).loopNest } := by
  by_cases within : i < q.ops.length
  · exact (Program.forall₂_op defaulted within).frame
  · have beyond := defaulted.length_eq
    rw [Program.op_eq_default (by omega), Program.op_eq_default (by omega)]

theorem sameShape_defaultLoopNest {q nested : Program}
    (defaulted : List.Forall₂ LoopNestDefaulted q.ops nested.ops) : nested.SameShape q :=
  ⟨defaulted.length_eq.symm, fun i => by rw [defaultLoopNest_frame defaulted i]; rfl⟩

/-- The first two passes keep what the storage pass assumes of the loop nests and of the ranks of
the operands. -/
theorem preconditions_defaultLoopNest {p nested : Program}
    (defaulted : List.Forall₂ LoopNestDefaulted (updateSequence p).ops nested.ops)
    (nests : ∀ op ∈ p.ops, LoopNestWellFormed op)
    (ranks : ∀ x ∈ p.valueOperands, x.2.mapping.size ≤ (p.op x.2.value.op).domain.length) :
    (∀ op ∈ nested.ops, LoopNestWellFormed op) ∧
      ∀ x ∈ nested.valueOperands, x.2.mapping.size ≤ (nested.op x.2.value.op).domain.length := by
  have shape := (sameShape_defaultLoopNest defaulted).trans sameShape_updateSequence
  refine ⟨Program.forall_mem_ops.mpr fun i within => ?_, ?_⟩
  · have within' : i < (updateSequence p).ops.length := defaulted.length_eq ▸ within
    refine (Program.forall₂_op defaulted within').wellFormed ?_
    rw [updateSequence_frame i]
    exact Program.forall_mem_ops.mp nests i (length_updateSequence ▸ within')
  · rw [shape.valueOperands]
    intro x mem
    rw [shape.domain]
    exact ranks x mem

/-- Storage attributes do not decide whether a compute operation lacks a loop nest. -/
theorem Program.SameUpToStorage.settled {p q : Program} (h : q.SameUpToStorage p)
    (settled : ∀ op ∈ p.ops, (op.isCompute && op.loopNest.isNone) = false) :
    ∀ op ∈ q.ops, (op.isCompute && op.loopNest.isNone) = false :=
  Program.forall_mem_ops.mpr fun i within => by
    rw [h.op i]
    exact Program.forall_mem_ops.mp settled i (h.length ▸ within)

section

variable {verify : Program → StorageAnalysis → Bool} {analysis : Program → StorageAnalysis}
  {p out : Program}

/-- A second run of the pipeline on its output, from the storage analysis the first run
committed, returns that output: it keeps every
`sequence` and `loop_nest` attribute, reaches the same analysis and commits the same storage
attributes. This needs the loop nests of the program to be well formed, the analysis the first run
starts from to be consistent with its program, and the storage verification not to read storage
attributes. -/
theorem defaultLoweringPipeline_round_trip
    (nests : ∀ op ∈ p.ops, LoopNestWellFormed op)
    (ranks : ∀ x ∈ p.valueOperands, x.2.mapping.size ≤ (p.op x.2.value.op).domain.length)
    (consistent : ∀ q, (analysis q).WellFormed q)
    (ignoresStorage : ∀ q q', q.SameUpToStorage q' → verify q = verify q')
    (success : defaultLoweringPipeline verify analysis p = .ok out) :
    ∃ nested sa, defaultLoopNest (updateSequence p) = .ok nested ∧
      storageStages nested verify (analysis nested) = .ok sa ∧
      ∀ analysis' : Program → StorageAnalysis, analysis' out = sa →
        defaultLoweringPipeline verify analysis' out = .ok out := by
  obtain ⟨nested, first, defaulted⟩ := defaultLoopNest_spec (updateSequence p)
  have ran : runOnProgram nested verify (analysis nested) = .ok out :=
    (defaultLoweringPipeline_of_nested first).symm.trans success
  obtain ⟨sa, stages, committed⟩ := except_bind_eq_ok.mp ran
  refine ⟨nested, sa, first, stages, fun analysis' seeded => ?_⟩
  have stored : out.SameUpToStorage nested :=
    ⟨(commitStorages_eq_ok committed).1, commitStorages_op committed⟩
  -- the second run's first two passes keep the program
  have numbered : updateSequence out = out :=
    updateSequence_of_sequenced (stored.sameShape.trans (sameShape_defaultLoopNest defaulted))
      fun i => by rw [stored.op i, defaultLoopNest_frame defaulted i]
  have settled := stored.settled (LoopNestDefaulted.forall_mem defaulted fun _ _ _ h => h.settled)
  -- its storage stages reach the analysis of the first run, and the commit rewrites nothing
  obtain ⟨nestsNested, ranksNested⟩ := preconditions_defaultLoopNest defaulted nests ranks
  have fixed := storageStages_fixed nestsNested ranksNested (consistent nested) stages
  have rerun : runOnProgram out verify sa = .ok out := by
    rw [runOnProgram, congrFun (storageStages_congr stored (ignoresStorage out nested stored)) sa,
      fixed]
    exact commitStorages_recommit committed
  rw [defaultLoweringPipeline, numbered, defaultLoopNest_of_settled settled]
  rw [← seeded] at rerun
  exact (defaultStorage_of_settled verify _ settled).trans rerun

theorem defaultLoweringPipeline_round_trip_crossProgram : ∃ out nested sa,
    (∀ op ∈ crossProgram.ops, LoopNestWellFormed op) ∧
    (∀ x ∈ crossProgram.valueOperands,
      x.2.mapping.size ≤ (crossProgram.op x.2.value.op).domain.length) ∧
    (∀ q, (StorageAnalysis.empty).WellFormed q) ∧
    defaultLoweringPipeline (fun _ _ => true) (fun _ => .empty) crossProgram = .ok out ∧
    defaultLoopNest (updateSequence crossProgram) = .ok nested ∧
    storageStages nested (fun _ _ => true) .empty = .ok sa ∧
    defaultLoweringPipeline (fun _ _ => true) (fun _ => sa) out = .ok out := by
  obtain ⟨out, ran⟩ : ∃ out, defaultLoweringPipeline (fun _ _ => true) (fun _ => .empty)
      crossProgram = .ok out := ⟨_, rfl⟩
  have nests : ∀ op ∈ crossProgram.ops, LoopNestWellFormed op := by decide
  have ranks : ∀ x ∈ crossProgram.valueOperands,
      x.2.mapping.size ≤ (crossProgram.op x.2.value.op).domain.length := by decide
  obtain ⟨nested, sa, first, stages, again⟩ := @defaultLoweringPipeline_round_trip
    (fun _ _ => true) _ _ _ nests ranks StorageAnalysis.wellFormed_empty (fun _ _ _ => rfl) ran
  exact ⟨out, nested, sa, nests, ranks, StorageAnalysis.wellFormed_empty,
    ran, first, stages, again (fun _ => sa) rfl⟩

end

end SairLowering
