import SairLowering.Pipeline
import SairLowering.CommitRenaming

/-!
# The pipeline commits all or nothing

`CommitStorage` reads `loop_names()[loop]` for every loop a layout references, which is only
safe where the loop nest covers the domain (`CommitRenaming`). `DefaultLoopNest` gives every
compute operation without a loop nest one that covers its domain, so in the pipeline only the
loop nests the program came with need to. Given those, the pipeline fails exactly when stages 1
to 5 of the storage pass fail on the program the first two passes produce, and otherwise commits:
no storage decision is written unless all of them are.

Results:
1. `LoopNestDefaulted.covers`: after `DefaultLoopNest`, the loop nest of every compute operation
   covers its domain if the one it had did.
2. `defaultLoweringPipeline_all_or_nothing`: the pipeline fails exactly when the storage stages
   fail, and commits whenever they succeed.
3. `defaultLoweringPipeline_diagnoses`: on every program the pipeline reports only the three
   diagnostics of the storage stages; every other failure is a crash.
-/

namespace SairLowering

open MappingExpr (dim)

/-- The default loop nest covers the domain: loop `i` iterates dimension `i`. -/
theorem LoopNestDefaulted.covers {op op' : SairOp} (h : LoopNestDefaulted op op')
    (given : op.isCompute = true → op.loopNest.isSome = true → LoopNestCovers op)
    (compute : op'.isCompute = true) : LoopNestCovers op' := by
  unfold LoopNestDefaulted at h
  split at h
  · obtain ⟨loops, iters, rfl⟩ := h
    exact ⟨loops, rfl, fun d below => iters ▸ List.mem_map_of_mem dim (List.mem_range.mpr below)⟩
  · next present =>
    subst h
    exact given compute (by simpa [compute, Option.isNone_iff_eq_none,
      Option.ne_none_iff_isSome] using present)

section

variable {verify : Program → StorageAnalysis → Bool} {analysis : Program → StorageAnalysis}
  {p nested : Program}

theorem defaultLoweringPipeline_of_nested (first : defaultLoopNest (updateSequence p) = .ok nested) :
    defaultLoweringPipeline verify analysis p = runOnProgram nested verify (analysis nested) := by
  obtain ⟨nested', first', defaulted⟩ := defaultLoopNest_spec (updateSequence p)
  obtain rfl : nested' = nested := Except.ok.inj (first'.symm.trans first)
  rw [defaultLoweringPipeline, first]
  exact defaultStorage_of_settled verify _
    (LoopNestDefaulted.forall_mem defaulted fun _ _ _ h => h.settled)

/-- The program the first two passes produce has a loop nest covering the domain on every
compute operation, when the loop nests the program came with cover theirs. -/
theorem defaultLoopNest_covering
    (given : ∀ i < p.ops.length, (p.op i).isCompute = true → (p.op i).loopNest.isSome = true →
      LoopNestCovers (p.op i))
    (defaulted : List.Forall₂ LoopNestDefaulted (updateSequence p).ops nested.ops) :
    ∀ i < nested.ops.length, (nested.op i).isCompute = true → LoopNestCovers (nested.op i) := by
  intro i within compute
  have sequenced : i < (updateSequence p).ops.length := defaulted.length_eq ▸ within
  have original : i < p.ops.length := length_updateSequence ▸ sequenced
  refine (Program.forall₂_op defaulted sequenced).covers (fun compute' present => ?_) compute
  rw [updateSequence_frame i] at compute' present ⊢
  exact given i original compute' present

/-- When the storage analysis the pipeline is given is consistent with the program and the loop
nests the program came with cover their domains, the pipeline fails exactly when stages 1 to 5 of
the storage pass fail on the loop-nested program, and commits every storage attribute whenever
they succeed. -/
theorem defaultLoweringPipeline_all_or_nothing (consistent : ∀ q, (analysis q).WellFormed q)
    (given : ∀ i < p.ops.length, (p.op i).isCompute = true → (p.op i).loopNest.isSome = true →
      LoopNestCovers (p.op i)) :
    ∃ nested, defaultLoopNest (updateSequence p) = .ok nested ∧
      (∀ e, defaultLoweringPipeline verify analysis p = .error e ↔
        storageStages nested verify (analysis nested) = .error e) ∧
      ∀ sa, storageStages nested verify (analysis nested) = .ok sa →
        ∃ out, commitStorages nested sa = .ok out ∧ defaultLoweringPipeline verify analysis p = .ok out := by
  obtain ⟨nested, first, defaulted⟩ := defaultLoopNest_spec (updateSequence p)
  have pipeline : defaultLoweringPipeline verify analysis p =
      runOnProgram nested verify (analysis nested) := defaultLoweringPipeline_of_nested first
  have commits : ∀ sa, storageStages nested verify (analysis nested) = .ok sa →
      ∃ out, commitStorages nested sa = .ok out := fun sa stages =>
    exists_commitStorages_eq_ok
      (wellFormed_of_reflTransGen (consistent nested) (storageStages_reflTransGen stages))
      (defaultLoopNest_covering given defaulted)
  refine ⟨nested, first, fun e => ?_, fun sa stages => ?_⟩
  · rw [pipeline, runOnProgram, except_bind_eq_error]
    refine ⟨fun failed => failed.elim id fun ⟨sa, stages, committed⟩ => ?_, .inl⟩
    obtain ⟨out, ok⟩ := commits sa stages
    cases ok.symm.trans committed
  · obtain ⟨out, ok⟩ := commits sa stages
    exact ⟨out, ok, by rw [pipeline, runOnProgram, stages]; exact ok⟩

/-! ## What the pipeline can report -/

theorem Diagnoses.mapM {α β : Type} {messages : List String} {f : α → Except Fault β}
    {l : List α} (each : ∀ x ∈ l, Diagnoses messages (f x)) : Diagnoses messages (l.mapM f) :=
  fun message failed =>
    let ⟨x, mem, found⟩ := mapM_eq_error failed
    each x mem message found

/-- Committing only crashes: on a loop the iteration space does not have. -/
theorem diagnoses_commitStorages (q : Program) (sa : StorageAnalysis) :
    Diagnoses [] (commitStorages q sa) := by
  have renamed : ∀ iterSpace loops, Diagnoses [] (commitRenaming iterSpace loops) := by
    intro iterSpace loops
    unfold commitRenaming
    refine .foldlM (fun _ _ => ?_) _ _
    dsimp only
    with_reducible repeat' first
      | refine .bind ?_ fun _ => ?_ | split | exact .ok _ | exact .crash _
  have written : ∀ iterSpace storage, Diagnoses [] (bufferAttrOf iterSpace storage) := by
    intro iterSpace storage
    unfold bufferAttrOf
    dsimp only
    with_reducible repeat' first
      | refine .bind ?_ fun _ => ?_ | split | exact .ok _ | exact renamed _ _
  refine .bind (.mapM fun ⟨i, op⟩ _ => ?_) fun _ => .ok _
  dsimp only
  split
  · exact .bind (.mapM fun _ _ => written _ _) fun _ => .ok _
  · exact .ok _

/-- The pipeline reports only the three diagnostics of the storage stages; in particular it never
reports a compute operation without a loop nest. Every other failure is a crash. -/
theorem defaultLoweringPipeline_diagnoses (verify : Program → StorageAnalysis → Bool)
    (analysis : Program → StorageAnalysis) (p : Program) :
    Diagnoses ["cannot generate default storage for multi-dimensional index values",
      externalRankError, storageVerificationError] (defaultLoweringPipeline verify analysis p) := by
  obtain ⟨nested, first, -⟩ := defaultLoopNest_spec (updateSequence p)
  rw [defaultLoweringPipeline_of_nested first]
  exact .bind (diagnoses_storageStages nested _ verify) fun sa =>
    (diagnoses_commitStorages nested sa).mono (List.nil_subset _)

theorem defaultLoweringPipeline_all_or_nothing_crossProgram :
    (∀ q, (StorageAnalysis.empty).WellFormed q) ∧
    (∀ i < crossProgram.ops.length, (crossProgram.op i).isCompute = true →
      (crossProgram.op i).loopNest.isSome = true → LoopNestCovers (crossProgram.op i)) ∧
    ∃ nested, defaultLoopNest (updateSequence crossProgram) = .ok nested ∧
      (∀ e, defaultLoweringPipeline (fun _ _ => true) (fun _ => .empty) crossProgram = .error e ↔
        storageStages nested (fun _ _ => true) .empty = .error e) ∧
      ∀ sa, storageStages nested (fun _ _ => true) .empty = .ok sa →
        ∃ out, commitStorages nested sa = .ok out ∧
          defaultLoweringPipeline (fun _ _ => true) (fun _ => .empty) crossProgram = .ok out :=
  ⟨StorageAnalysis.wellFormed_empty, by decide,
    defaultLoweringPipeline_all_or_nothing (fun q => StorageAnalysis.wellFormed_empty q) (by decide)⟩

end

end SairLowering
