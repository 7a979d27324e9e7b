import SairLowering.RunFrame
import SairLowering.Coverage

/-!
# The storage stages reach a fixed point

Every stage of `RunOnProgram` makes each element it visits settled: stage 1 gives a memory space
to every operand's value that does not fit in registers, stage 2 sets every value's space and
layout, stage 3 makes every layout cover the communication volume of every operand, stage 4
removes every `unknown`, and stage 5 shrinks every buffer's loop nest to the loops its accesses
share. On a settled element each stage does nothing, and what a stage settles the later steps keep
settled. So running the five stages again on the analysis they produced changes nothing, and
`RunOnProgram` from the analysis it commits commits the same program again.

Results:
1. `minimizeBufferLoopNests_buffer`: the minimization of stage 5, modelled from the spec, shrinks
   the loop nest of every buffer to the longest prefix of it that every operation accessing the
   buffer shares.
2. One lemma per stage: the stage's step on a settled element returns the analysis unchanged
   (`createBufferIfNeeded_of_settled`, `initializeStorage_of_set`, `extendLayout_of_covers`,
   `makeLayoutFullySpecified_of_specified`, `minimizeBufferLoopNests_idem`).
3. `storageStages_idempotent`: on programs whose loop nests are well formed and whose operands
   read their producers through mappings no longer than the producers' domains, the five stages
   are idempotent, and `RunOnProgram` from the analysis it commits commits the same program.
-/

namespace SairLowering

/-! ## Walks -/

section

variable {α β ε : Type} {f : β → α → Except ε β} {l : List α}

/-- A walk that leaves its state alone at every element returns it. -/
theorem foldlM_of_fixed {a : β} (fixed : ∀ x ∈ l, f a x = .ok a) : l.foldlM f a = .ok a := by
  induction l with
  | nil => rfl
  | cons x l ih =>
    rw [List.foldlM_cons, fixed x (List.mem_cons_self x l)]
    exact ih fun y mem => fixed y (List.mem_cons_of_mem x mem)

/-- A successful walk visits each of its elements: it runs from its start to a state where the
step on the element succeeds, and from the state after that step to its end. -/
theorem foldlM_visit {R : β → β → Prop} {a b : β} (walk : l.foldlM f a = .ok b)
    (step : ∀ x ∈ l, ∀ s s', f s x = .ok s' → R s s') {x : α} (mem : x ∈ l) :
    ∃ s s', Relation.ReflTransGen R a s ∧ f s x = .ok s' ∧ Relation.ReflTransGen R s' b := by
  induction l generalizing a with
  | nil => cases mem
  | cons y l ih =>
    obtain ⟨s₁, first, rest⟩ := except_bind_eq_ok.mp walk
    have later : ∀ z ∈ l, ∀ s s', f s z = .ok s' → R s s' := fun z mem => step z (by simp [mem])
    rcases List.mem_cons.mp mem with rfl | mem
    · exact ⟨a, s₁, .refl, first, foldlM_reflTransGen rest later⟩
    · obtain ⟨s, s', before, visit, after⟩ := ih rest later mem
      exact ⟨s, s', .head (step y (by simp) a s₁ first) before, visit, after⟩

end

/-! ## Loop-nest minimization -/

theorem le_foldr_min_iff {c : Nat → Nat} {l : List Nat} {d m : Nat} :
    m ≤ l.foldr (fun i n => min n (c i)) d ↔ m ≤ d ∧ ∀ i ∈ l, m ≤ c i := by
  induction l with
  | nil => simp
  | cons a l ih =>
    simp only [List.foldr_cons, Nat.le_min, ih, List.forall_mem_cons]
    constructor
    · rintro ⟨⟨below, rest⟩, first⟩; exact ⟨below, first, rest⟩
    · rintro ⟨below, first, rest⟩; exact ⟨⟨below, rest⟩, first⟩

theorem commonPrefixLength_take (k : Nat) (l m : List LoopName) :
    commonPrefixLength (l.take k) m = min k (commonPrefixLength l m) := by
  induction l generalizing k m with
  | nil => cases m <;> simp [commonPrefixLength]
  | cons a l ih =>
    cases k with
    | zero => cases m <;> simp [commonPrefixLength]
    | succ k =>
      cases m with
      | nil => simp [commonPrefixLength]
      | cons b m =>
        simp only [List.take_succ_cons, commonPrefixLength]
        split
        · rw [ih]; omega
        · simp

/-- A loop nest already shrunk to the loops every access shares is not shrunk further. -/
theorem take_minimized (loopNest : List LoopName) (accesses : List Nat)
    (loopNames : Nat → List LoopName) :
    let kept := accesses.foldr (fun i n => min n (commonPrefixLength loopNest (loopNames i)))
      loopNest.length
    (loopNest.take kept).take (accesses.foldr
      (fun i n => min n (commonPrefixLength (loopNest.take kept) (loopNames i)))
      (loopNest.take kept).length) = loopNest.take kept := by
  intro kept
  have shared := le_foldr_min_iff.mp (le_refl kept)
  have length : (loopNest.take kept).length = kept := by simp [shared.1]
  have again : accesses.foldr (fun i n => min n (commonPrefixLength (loopNest.take kept)
      (loopNames i))) (loopNest.take kept).length = kept := by
    refine le_antisymm ((le_foldr_min_iff.mp le_rfl).1.trans length.le)
      (le_foldr_min_iff.mpr ⟨?_, ?_⟩)
    · rw [length]
    · intro i mem
      rw [commonPrefixLength_take]
      exact le_min le_rfl (shared.2 i mem)
  rw [again, List.take_take, min_self]

theorem StorageAnalysis.eq_of_fields {sa sa' : StorageAnalysis} (storages : sa.storages = sa'.storages)
    (buffers : ∀ name, sa.buffers name = sa'.buffers name)
    (nextBufferId : sa.nextBufferId = sa'.nextBufferId) : sa = sa' := by
  obtain ⟨storages₁, buffers₁, next₁⟩ := sa
  obtain ⟨storages₂, buffers₂, next₂⟩ := sa'
  have : buffers₁ = buffers₂ := funext buffers
  subst storages this nextBufferId
  rfl

@[simp] theorem bufferAccesses_buffers (p : Program) (sa : StorageAnalysis)
    (buffers : Nat → Option Buffer) :
    bufferAccesses p { sa with buffers } = bufferAccesses p sa := rfl

/-- The minimization of stage 5 is idempotent. -/
theorem minimizeBufferLoopNests_idem (p : Program) (sa : StorageAnalysis) :
    minimizeBufferLoopNests p (minimizeBufferLoopNests p sa) = minimizeBufferLoopNests p sa := by
  refine StorageAnalysis.eq_of_fields rfl (fun name => ?_) rfl
  simp only [minimizeBufferLoopNests, bufferAccesses_buffers, Option.map_map]
  cases sa.buffers name with
  | none => rfl
  | some buffer => simp only [Option.map_some', Function.comp, take_minimized]

theorem take_prefix_of_le_commonPrefixLength {l m : List LoopName} {k : Nat}
    (h : k ≤ commonPrefixLength l m) : l.take k <+: m := by
  induction l generalizing k m with
  | nil => simp
  | cons a l ih =>
    cases k with
    | zero => simp
    | succ k =>
      cases m with
      | nil => simp [commonPrefixLength] at h
      | cons b m =>
        simp only [commonPrefixLength] at h
        split at h
        · next same => subst same; simpa using ih (Nat.le_of_succ_le_succ h)
        · omega

theorem length_le_commonPrefixLength {l m common : List LoopName} (hl : common <+: l)
    (hm : common <+: m) : common.length ≤ commonPrefixLength l m := by
  induction common generalizing l m with
  | nil => simp
  | cons a common ih =>
    obtain ⟨l', rfl⟩ := hl
    obtain ⟨m', rfl⟩ := hm
    simp only [List.cons_append, commonPrefixLength, if_true, List.length_cons]
    exact Nat.succ_le_succ (ih (List.prefix_append _ _) (List.prefix_append _ _))

/-- The minimization shrinks the loop nest of every buffer to the longest prefix of it that every
operation writing or reading a value stored in the buffer shares. -/
theorem minimizeBufferLoopNests_buffer {p : Program} {sa : StorageAnalysis} {name : Nat}
    {buffer : Buffer} (found : sa.buffers name = some buffer) :
    ∃ loops, (minimizeBufferLoopNests p sa).buffers name = some { buffer with loopNest := loops } ∧
      loops <+: buffer.loopNest ∧
      (∀ i ∈ bufferAccesses p sa name, loops <+: (p.iterationSpace i).loopNames) ∧
      ∀ common, common <+: buffer.loopNest →
        (∀ i ∈ bufferAccesses p sa name, common <+: (p.iterationSpace i).loopNames) →
        common <+: loops := by
  set kept := (bufferAccesses p sa name).foldr
    (fun i n => min n (commonPrefixLength buffer.loopNest (p.iterationSpace i).loopNames))
    buffer.loopNest.length
  have shared := le_foldr_min_iff.mp (le_refl kept)
  refine ⟨buffer.loopNest.take kept, by simp [minimizeBufferLoopNests, found, kept], List.take_prefix _ _,
    fun i mem => take_prefix_of_le_commonPrefixLength (shared.2 i mem), fun common hl hm => ?_⟩
  refine List.prefix_take_iff.mpr ⟨hl, le_foldr_min_iff.mpr ⟨hl.length_le, fun i mem => ?_⟩⟩
  exact length_le_commonPrefixLength hl (hm i mem)

/-- Every value a walk of `MakeLayoutFullySpecified` has visited has a layout without
`unknown`, whatever the walk did after visiting it. -/
theorem foldlM_makeLayoutFullySpecified {values : List Value} {sa sa' : StorageAnalysis}
    (h : values.foldlM makeLayoutFullySpecified sa = .ok sa') :
    ∀ v ∈ values, ∃ layout, (sa'.storages v).layout = some layout ∧
      layout.isFullySpecified = true := by
  refine foldlM_prefix (fun seen s => ∀ v ∈ seen, ∃ layout, (s.storages v).layout = some layout ∧
    layout.isFullySpecified = true) h (by simp) ?_
  intro seen x s s' _ hold step v mem
  obtain ⟨layout, -, rfl⟩ := makeLayoutFullySpecified_eq_ok step
  by_cases same : v = x
  · subst same; exact ⟨_, by simp, layout.isFullySpecified_makeFullySpecified⟩
  · simp only [List.mem_append, List.mem_singleton, same, or_false] at mem
    simpa [same] using hold v mem

/-! ## Each stage leaves a settled analysis alone -/

section

variable {p : Program} {sa sa' : StorageAnalysis} {owner : Nat} {operand : ValueOperand}

theorem createBufferIfNeeded_of_settled
    (settled : (sa.storages operand.value).space.isSome ∨ fitsInRegisters p owner operand = .ok true) :
    createBufferIfNeeded p sa owner operand = .ok sa := by
  unfold createBufferIfNeeded
  rcases settled with spaced | fits
  · simp [StorageAnalysis.getStorage, spaced, pure, Except.pure]
  · cases (sa.storages operand.value).space <;>
      simp [StorageAnalysis.getStorage, fits, bind, Except.bind, pure, Except.pure]

/-- After `CreateBufferIfNeeded` the operand's value has a memory space, or the operand fits in
registers. -/
theorem createBufferIfNeeded_settles (h : createBufferIfNeeded p sa owner operand = .ok sa') :
    (sa'.storages operand.value).space.isSome ∨ fitsInRegisters p owner operand = .ok true := by
  rcases hs : (sa.storages operand.value).space with _ | space
  · rcases hf : fitsInRegisters p owner operand with _ | _ | _
    · simp [createBufferIfNeeded, StorageAnalysis.getStorage, hs, hf, bind, Except.bind, pure,
        Except.pure] at h
    · rcases createBufferIfNeeded_eq_ok h with rfl | ⟨-, -, -, created⟩
      · simp [createBufferIfNeeded, StorageAnalysis.getStorage, hs, hf, bind, Except.bind, pure,
          Except.pure, throw, throwThe, MonadExceptOf.throw] at h
        split at h
        · cases h
        · obtain ⟨merged, -, same⟩ := StorageAnalysis.createBuffer_eq_ok.mp h
          have := congrArg StorageAnalysis.nextBufferId same
          simp at this
      obtain ⟨merged, found, rfl⟩ := StorageAnalysis.createBuffer_eq_ok.mp created
      have space := (ValueStorage.merge_eq_some.mp found).1
      simp only [hs, mergeOption_none_left, Option.some.injEq] at space
      simp [← space]
    · exact .inr rfl
  · rcases createBufferIfNeeded_eq_ok h with rfl | ⟨unset, -⟩
    · simp [hs]
    · simp [hs] at unset

/-- `InitializeStorage` leaves a value with a memory space and a layout alone. -/
theorem initializeStorage_of_set {value : Value} (spaced : (sa.storages value).space.isSome)
    (laidOut : (sa.storages value).layout.isSome) : initializeStorage p sa value = .ok sa := by
  obtain ⟨space, hs⟩ := Option.isSome_iff_exists.mp spaced
  obtain ⟨layout, hl⟩ := Option.isSome_iff_exists.mp laidOut
  simp [initializeStorage, StorageAnalysis.getStorage, hs, hl, StorageAnalysis.mergeStorage, pure,
    Except.pure, bind, Except.bind]

/-- `ExtendLayout` leaves a layout that covers the operand's communication volume alone. -/
theorem extendLayout_of_covers {layout : MappingAttr}
    (hl : (sa.storages operand.value).layout = some layout) (covered : covers p owner operand layout) :
    extendLayout p sa owner operand = .ok sa := by
  have volume : communicationVolume operand.mapping.size (p.iterationSpace operand.value.op)
      (p.iterationSpace owner) = p.operandVolume owner operand := rfl
  cases hi : ((p.iterationSpace operand.value.op).mapping.compose layout).inverse with
  | none => simp [covers, hi] at covered
  | some layoutToOperand =>
    simp only [covers, hi] at covered
    simp only [extendLayout, StorageAnalysis.getStorage, hl, hi, nonNull, bind, Except.bind, volume,
      covered]
    rfl

theorem MappingAttr.makeFullySpecified_of_isFullySpecified {m : MappingAttr}
    (specified : m.isFullySpecified = true) : m.makeFullySpecified = m := by
  obtain ⟨use, dims⟩ := m
  simp only [MappingAttr.isFullySpecified, List.all_eq_true, bne_iff_ne, ne_eq] at specified
  simp only [MappingAttr.makeFullySpecified, MappingAttr.mk.injEq, true_and]
  conv_rhs => rw [← List.map_id dims]
  refine List.map_congr_left fun e mem => ?_
  cases e with
  | unknown => exact absurd rfl (specified _ mem)
  | _ => rfl

/-- `MakeLayoutFullySpecified` leaves a layout without `unknown` alone. -/
theorem makeLayoutFullySpecified_of_specified {value : Value} {layout : MappingAttr}
    (hl : (sa.storages value).layout = some layout) (specified : layout.isFullySpecified = true) :
    makeLayoutFullySpecified sa value = .ok sa := by
  have unchanged : { sa.storages value with layout := some layout } = sa.storages value := by
    rw [← hl]
  have merged : (sa.storages value).mergeLayout layout.makeFullySpecified = some (sa.storages value) := by
    simp [ValueStorage.mergeLayout, hl, mergeLayouts, unchanged, MappingAttr.unify_self,
      MappingAttr.makeFullySpecified_of_isFullySpecified specified]
  simp only [makeLayoutFullySpecified, StorageAnalysis.getStorage, hl, nonNull, merged, assertSuccess,
    bind, Except.bind, StorageAnalysis.mergeStorage_of_merge (ValueStorage.merge_self _),
    Function.update_eq_self]

end

/-! ## The stages settle what they visit -/

section

variable {p : Program} {verify : Program → StorageAnalysis → Bool} {sa sa' : StorageAnalysis}

/-- What the step of a walk establishes for the element it visits and every step keeps holds for
every element at the end of any run that continues the walk. -/
theorem settled_of_walk {α : Type} {f : StorageAnalysis → α → Except Fault StorageAnalysis}
    {l : List α} {sa₁ : StorageAnalysis} (Q : StorageAnalysis → α → Prop) (wf : sa.WellFormed p)
    (walk : l.foldlM f sa = .ok sa₁)
    (steps : ∀ x ∈ l, ∀ s s', f s x = .ok s' → StorageStep p verify s s')
    (rest : Relation.ReflTransGen (StorageStep p verify) sa₁ sa')
    (establish : ∀ x s s', f s x = .ok s' → Q s' x)
    (keep : ∀ x s s', s.Advances s' → Q s x → Q s' x) : ∀ x ∈ l, Q sa' x := by
  intro x mem
  obtain ⟨s, s', before, visit, after⟩ := foldlM_visit walk steps mem
  have wf' := wellFormed_of_reflTransGen wf (before.tail (steps x mem s s' visit))
  exact keep x s' sa' (advances_of_reflTransGen wf' (after.trans rest)) (establish x s s' visit)

theorem StorageAnalysis.Advances.space_isSome {s s' : StorageAnalysis} (h : s.Advances s')
    {v : Value} (spaced : (s.storages v).space.isSome) : (s'.storages v).space.isSome := by
  obtain ⟨space, hs⟩ := Option.isSome_iff_exists.mp spaced
  simp [(h.storages v).space space hs]

/-- Running the five stages again on the analysis they produced changes nothing. -/
theorem storageStages_fixed (nests : ∀ op ∈ p.ops, LoopNestWellFormed op)
    (ranks : ∀ x ∈ p.valueOperands, x.2.mapping.size ≤ (p.op x.2.value.op).domain.length)
    (wf : sa.WellFormed p) (h : storageStages p verify sa = .ok sa') :
    storageStages p verify sa' = .ok sa' := by
  obtain ⟨sa₁, sa₂, sa₃, sa₄, h₁, h₂, h₃, h₄, h₅⟩ := storageStages_eq_ok h
  obtain ⟨rfl, verified⟩ := verifyStorage_eq_ok h₅
  have run₁ : Relation.ReflTransGen (StorageStep p verify) sa sa₁ := createBuffers_reflTransGen h₁
  have run₂ : Relation.ReflTransGen (StorageStep p verify) sa₁ sa₂ :=
    initializeStorages_reflTransGen h₂
  have run₃ : Relation.ReflTransGen (StorageStep p verify) sa₃ (minimizeBufferLoopNests p sa₄) :=
    (makeLayoutsFullySpecified_reflTransGen h₄).tail (.verifyStorage h₅)
  have run₂₃ : Relation.ReflTransGen (StorageStep p verify) sa₂ sa₃ := extendLayouts_reflTransGen h₃
  have wf₁ := wellFormed_of_reflTransGen wf run₁
  have wf₂ := wellFormed_of_reflTransGen wf₁ run₂
  -- stage 1: every operand's value has a space or the operand fits in registers
  have settled₁ := settled_of_walk (fun s (x : Nat × ValueOperand) =>
      (s.storages x.2.value).space.isSome ∨ fitsInRegisters p x.1 x.2 = .ok true) wf h₁
    (fun _ mem _ _ step => .createBufferIfNeeded mem step) (run₂.trans (run₂₃.trans run₃))
    (fun _ _ _ step => createBufferIfNeeded_settles step)
    (fun _ _ _ advances settled => settled.imp_left advances.space_isSome)
  -- stage 2: every value has a space and a layout
  have settled₂ := settled_of_walk (fun s v =>
      (s.storages v).space.isSome ∧ (s.storages v).layout.isSome) wf₁ h₂
    (fun _ mem _ _ step => .initializeStorage mem step) (run₂₃.trans run₃)
    (fun v s s' step => by obtain ⟨rank, rfl, -⟩ := initializeStorage_eq_ok step; simp)
    (fun v _ _ advances settled => ⟨advances.space_isSome settled.1,
      (advances.storages v).layout settled.2⟩)
  -- stage 3: every operand is covered
  have covered : ∀ x ∈ p.valueOperands, Covered p (minimizeBufferLoopNests p sa₄) x.1 x.2 :=
    fun x mem => covered_of_reflTransGen nests ranks (wellFormed_of_reflTransGen wf₂ run₂₃) run₃
      (ranks x mem) (extendLayouts_covered nests ranks wf₂ h₃ x mem)
  -- stage 4: no layout has an `unknown`
  have specified := foldlM_makeLayoutFullySpecified h₄
  refine except_bind_eq_ok.mpr ⟨_, foldlM_of_fixed fun x mem =>
    createBufferIfNeeded_of_settled (settled₁ x mem), ?_⟩
  refine except_bind_eq_ok.mpr ⟨_, foldlM_of_fixed fun v mem =>
    initializeStorage_of_set (settled₂ v mem).1 (settled₂ v mem).2, ?_⟩
  refine except_bind_eq_ok.mpr ⟨_, foldlM_of_fixed fun x mem =>
    let ⟨_, hl, covers⟩ := covered x mem; extendLayout_of_covers hl covers, ?_⟩
  refine except_bind_eq_ok.mpr ⟨_, foldlM_of_fixed fun v mem =>
    let ⟨_, hl, fully⟩ := specified v mem; makeLayoutFullySpecified_of_specified hl fully, ?_⟩
  simp only [verifyStorage, minimizeBufferLoopNests_idem, verified, if_true]

/-- Running the five stages again on the analysis they produced changes nothing, and
`RunOnProgram` from that analysis commits the same program. -/
theorem storageStages_idempotent (nests : ∀ op ∈ p.ops, LoopNestWellFormed op)
    (ranks : ∀ x ∈ p.valueOperands, x.2.mapping.size ≤ (p.op x.2.value.op).domain.length)
    (wf : sa.WellFormed p) (h : storageStages p verify sa = .ok sa') :
    storageStages p verify sa' = .ok sa' ∧ runOnProgram p verify sa' = runOnProgram p verify sa := by
  have again := storageStages_fixed nests ranks wf h
  exact ⟨again, by simp only [runOnProgram, again, h]⟩

theorem storageStages_idempotent_crossProgram : ∃ sa',
    (∀ op ∈ crossProgram.ops, LoopNestWellFormed op) ∧
    (∀ x ∈ crossProgram.valueOperands,
      x.2.mapping.size ≤ (crossProgram.op x.2.value.op).domain.length) ∧
    StorageAnalysis.empty.WellFormed crossProgram ∧
    storageStages crossProgram (fun _ _ => true) .empty = .ok sa' ∧
    storageStages crossProgram (fun _ _ => true) sa' = .ok sa' ∧
    runOnProgram crossProgram (fun _ _ => true) sa' =
      runOnProgram crossProgram (fun _ _ => true) .empty := by
  obtain ⟨sa', stages⟩ : ∃ sa', storageStages crossProgram (fun _ _ => true) .empty = .ok sa' :=
    ⟨_, rfl⟩
  have nests : ∀ op ∈ crossProgram.ops, LoopNestWellFormed op := by decide
  have ranks : ∀ x ∈ crossProgram.valueOperands,
      x.2.mapping.size ≤ (crossProgram.op x.2.value.op).domain.length := by decide
  exact ⟨sa', nests, ranks, StorageAnalysis.wellFormed_empty crossProgram, stages,
    storageStages_idempotent nests ranks (StorageAnalysis.wellFormed_empty crossProgram) stages⟩

end

end SairLowering
