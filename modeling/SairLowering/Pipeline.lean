import SairLowering.Sequence
import SairLowering.DefaultLoopNest
import SairLowering.StorageInvariants

/-!
# The default lowering pipeline

`CreateDefaultLoweringAttributesPipeline` (lines 407-411) runs `DefaultSequencePass`, then
`DefaultLoopNest`, then `DefaultStorage`. Each pass writes one attribute: the sequence pass the
`sequence` attributes, the loop nest pass the missing `loop_nest` attributes, the storage pass the
storage attributes of the compute operations. The storage analysis `DefaultStorage` starts from is
built from the program it runs on; its construction is not in the sources, so it is the
parameter `analysis`.

Results:
1. `defaultLoweringPipeline_eq`: the storage pass's check that every compute operation has a loop
   nest always passes in the pipeline.
2. `defaultLoweringPipeline_frame`: the output differs from the input only in the attribute each
   pass writes, with the value that pass gave it.
3. `defaultLoweringPipeline_attributes`: every compute operation of the output has its relative
   index in `Ops()` as `sequence` and a `loop_nest`.
-/

namespace SairLowering

/-- `CreateDefaultLoweringAttributesPipeline` on one program. -/
def defaultLoweringPipeline (verify : Program → StorageAnalysis → Bool)
    (analysis : Program → StorageAnalysis) (p : Program) : Except Fault Program := do
  let p ← defaultLoopNest (updateSequence p)
  defaultStorage p verify (analysis p)

/-! ## What each pass writes -/

theorem Program.forall₂_op {R : SairOp → SairOp → Prop} {p q : Program}
    (h : List.Forall₂ R p.ops q.ops) {i : Nat} (within : i < p.ops.length) : R (p.op i) (q.op i) := by
  obtain ⟨same, each⟩ := List.forall₂_iff_get.mp h
  rw [Program.op_of_getElem? (List.getElem?_eq_getElem within),
    Program.op_of_getElem? (List.getElem?_eq_getElem (same ▸ within))]
  exact each i within (same ▸ within)

/-- `RunOnProgram` rewrites at most the storage attributes of an operation. -/
theorem runOnProgram_frame {p out : Program} {verify : Program → StorageAnalysis → Bool}
    {sa : StorageAnalysis} (success : runOnProgram p verify sa = .ok out) :
    out.ops.length = p.ops.length ∧
      ∀ i < p.ops.length, out.op i = { p.op i with storage := (out.op i).storage } := by
  obtain ⟨sa', -, committed⟩ := except_bind_eq_ok.mp success
  obtain ⟨length, each⟩ := commitStorages_eq_ok committed
  refine ⟨length, fun i within => ?_⟩
  rcases each i within with ⟨-, same⟩ | ⟨-, written⟩
  · rw [same]
  · obtain ⟨attrs, rebuilt, -⟩ := commitStorage_eq_ok written
    rw [rebuilt]

/-- After `DefaultLoopNest` the storage pass's loop nest check passes. -/
theorem defaultStorage_of_settled {p : Program} (verify : Program → StorageAnalysis → Bool)
    (sa : StorageAnalysis) (settled : ∀ op ∈ p.ops, (op.isCompute && op.loopNest.isNone) = false) :
    defaultStorage p verify sa = runOnProgram p verify sa := by
  refine if_pos (List.all_eq_true.mpr fun op mem => ?_)
  have := settled op mem
  cases h : op.loopNest <;> simp_all

/-! ## The pipeline -/

/-- In the pipeline the storage pass's check that every compute operation has a loop nest always
passes: the pipeline is the storage run on the program the first two passes produce. -/
theorem defaultLoweringPipeline_eq (verify : Program → StorageAnalysis → Bool)
    (analysis : Program → StorageAnalysis) (p : Program) :
    ∃ nested, defaultLoopNest (updateSequence p) = .ok nested ∧
      defaultLoweringPipeline verify analysis p = runOnProgram nested verify (analysis nested) := by
  obtain ⟨nested, first, defaulted⟩ := defaultLoopNest_spec (updateSequence p)
  refine ⟨nested, first, ?_⟩
  rw [defaultLoweringPipeline, first]
  exact defaultStorage_of_settled verify _
    (LoopNestDefaulted.forall_mem defaulted fun _ _ _ h => h.settled)

/-- The output of the pipeline differs from its input only in the attribute each pass writes: the
`sequence` that `UpdateSequence` gave, the `loop_nest` that `DefaultLoopNest` gave, and the storage
attributes. -/
theorem defaultLoweringPipeline_frame {verify : Program → StorageAnalysis → Bool}
    {analysis : Program → StorageAnalysis} {p out : Program}
    (success : defaultLoweringPipeline verify analysis p = .ok out) :
    ∃ nested, defaultLoopNest (updateSequence p) = .ok nested ∧ out.ops.length = p.ops.length ∧
      ∀ i < p.ops.length, out.op i = { p.op i with
        sequence := ((updateSequence p).op i).sequence
        loopNest := (nested.op i).loopNest
        storage := (out.op i).storage } := by
  obtain ⟨nested, first, defaulted⟩ := defaultLoopNest_spec (updateSequence p)
  have stored : runOnProgram nested verify (analysis nested) = .ok out := by
    rw [← success, defaultLoweringPipeline, first]
    exact (defaultStorage_of_settled verify _
      (LoopNestDefaulted.forall_mem defaulted fun _ _ _ h => h.settled)).symm
  obtain ⟨outLength, committed⟩ := runOnProgram_frame stored
  have sequenced : (updateSequence p).ops.length = p.ops.length := length_updateSequence
  have nestedLength : nested.ops.length = p.ops.length := defaulted.length_eq.symm.trans sequenced
  refine ⟨nested, first, outLength.trans nestedLength, fun i within => ?_⟩
  have loops := (Program.forall₂_op defaulted (sequenced ▸ within)).frame
  rw [committed i (nestedLength ▸ within), loops, updateSequence_frame i]

/-- The pipeline's output numbers every compute operation by its relative index in `Ops()` and
gives it a loop nest: the `sequence` and `loop_nest` attributes the spec says the pipeline
finalizes are all set. -/
theorem defaultLoweringPipeline_attributes {verify : Program → StorageAnalysis → Bool}
    {analysis : Program → StorageAnalysis} {p out : Program}
    (success : defaultLoweringPipeline verify analysis p = .ok out) :
    ∀ i < p.ops.length, (p.op i).isCompute →
      (out.op i).sequence = some (p.relativeIndex i : Int) ∧ (out.op i).loopNest.isSome := by
  obtain ⟨nested, first, -, frame⟩ := defaultLoweringPipeline_frame success
  obtain ⟨nested', first', defaulted⟩ := defaultLoopNest_spec (updateSequence p)
  obtain rfl : nested' = nested := Except.ok.inj (first'.symm.trans first)
  intro i within compute
  rw [frame i within]
  refine ⟨sequence_updateSequence (mem_computeOps.mpr ⟨within, compute⟩), ?_⟩
  -- the loop nest pass left no compute operation without a loop nest
  have step := Program.forall₂_op defaulted (length_updateSequence.symm ▸ within)
  have computeNested : (nested'.op i).isCompute = true := by
    rw [step.frame, updateSequence_frame i]
    exact compute
  have settled := step.settled
  rw [computeNested, Bool.true_and] at settled
  show (nested'.op i).loopNest.isSome = true
  cases h : (nested'.op i).loopNest with
  | none => rw [h] at settled; cases settled
  | some _ => rfl

theorem defaultLoweringPipeline_attributes_crossProgram : ∃ out : Program,
    defaultLoweringPipeline (fun _ _ => true) (fun _ => .empty) crossProgram = .ok out ∧
    ∀ i < crossProgram.ops.length, (crossProgram.op i).isCompute →
      (out.op i).sequence = some (crossProgram.relativeIndex i : Int) ∧
        (out.op i).loopNest.isSome := by
  obtain ⟨out, ran⟩ : ∃ out, defaultLoweringPipeline (fun _ _ => true) (fun _ => .empty)
      crossProgram = .ok out := ⟨_, rfl⟩
  exact ⟨out, ran, defaultLoweringPipeline_attributes ran⟩

/-- The reduction through `fby` comes out numbered 0, 1, 2, with the unrelated operation sharing
the slot of the reduction. -/
example : ((defaultLoweringPipeline (fun _ _ => true) (fun _ => .empty)
    fbyProgram).toOption.map fun out => out.ops.map (·.sequence)) =
      some [some 0, none, some 1, some 2, some 1] := by
  decide

end SairLowering
