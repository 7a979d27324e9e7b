import SairLowering.Fixpoint

/-!
# The buffers the storage pass creates

Stage 1 creates a buffer for the first operand of a value that does not fit in registers, with
the loops of that operand's owner; which operand comes first depends on the order of the walk.
Every value without a memory space that has such an operand is stored in memory, in a buffer.
Stages 2 to 4 never change the loop nest of a buffer, and the operand's owner keeps accessing the
buffer. So stage 5, which shrinks the loop nest to its longest prefix shared by every operation
accessing the buffer, leaves the longest common prefix of the loops of all of them, whichever one
the buffer was created for.

Results:
1. `createBufferIfNeeded_storages`, `createBuffers_inBuffer`: stage 1 stores in memory, in a
   buffer, every value without a memory space that has an operand not fitting in registers;
   `names_of_stages`, `initializeStorages_names`: stages 2 to 5 keep that memory space and buffer
   name; `memory_of_not_fitsInRegisters`: that is what the pass commits for it.
2. `StorageAnalysis.loopNests`: the loop nest of every buffer. Stages 2 to 4 keep it
   (`initializeStorage_loopNests`, `extendLayout_loopNests`, `makeLayoutFullySpecified_loopNests`);
   stage 1 only adds, at a fresh name, the loops of an operand's owner
   (`createBufferIfNeeded_loopNests`).
3. `createBuffers_created`: after stage 1 every buffer it created has the loops of an operation
   reading a value stored in it.
4. `storageStages_buffer_loopNests`: after stage 5 the loop nest of every buffer the pass created
   is the longest common prefix of the loops of the operations accessing it.
-/

namespace SairLowering

/-- The loop nest of every buffer. -/
def StorageAnalysis.loopNests (sa : StorageAnalysis) (name : Nat) : Option (List LoopName) :=
  (sa.buffers name).map (·.loopNest)

/-- Merging into a set attribute gives that attribute. -/
theorem mergeOption_some_right {α : Type} [DecidableEq α] {a : Option α} {b : α} {c : Option α}
    (h : mergeOption a (some b) = some c) : c = some b := by
  cases a with
  | none => exact (Option.some.inj h).symm
  | some a =>
    simp only [mergeOption] at h
    split at h
    · next same => subst same; exact (Option.some.inj h).symm
    · cases h

/-! ## Values that do not fit in registers -/

/-- The value `w` is stored in memory, in a buffer. -/
structure StorageAnalysis.InBuffer (s : StorageAnalysis) (w : Value) : Prop where
  space : (s.storages w).space = some .memory
  named : (s.storages w).bufferName.isSome

section

variable {p : Program} {s s' : StorageAnalysis} {owner : Nat} {operand : ValueOperand}

/-- `CreateBufferIfNeeded` leaves the storage of a value alone or stores the value in memory, in a
buffer. -/
theorem createBufferIfNeeded_storages (h : createBufferIfNeeded p s owner operand = .ok s')
    (w : Value) : s'.storages w = s.storages w ∨ s'.InBuffer w := by
  rcases createBufferIfNeeded_eq_ok h with rfl | ⟨-, -, -, created⟩
  · exact .inl rfl
  obtain ⟨merged, hm, rfl⟩ := StorageAnalysis.createBuffer_eq_ok.mp created
  by_cases same : w = operand.value
  · subst same
    obtain ⟨space, name, -⟩ := ValueStorage.merge_eq_some.mp hm
    exact .inr ⟨by simp [mergeOption_some_right space], by simp [mergeOption_some_right name]⟩
  · exact .inl (by simp [same])

/-- After stage 1 every value without a memory space that has an operand not fitting in registers
is stored in memory, in a buffer. -/
theorem createBuffers_inBuffer {sa sa₁ : StorageAnalysis} (h : createBuffers p sa = .ok sa₁)
    (mem : (owner, operand) ∈ p.valueOperands) (spills : fitsInRegisters p owner operand = .ok false)
    (unset : (sa.storages operand.value).space = none) : sa₁.InBuffer operand.value := by
  -- every storage is the one stage 1 started from or in a buffer, and the value of every visited
  -- operand has a space unless the operand fits in registers
  obtain ⟨kept, settled⟩ := foldlM_prefix (fun seen s =>
      (∀ w, s.storages w = sa.storages w ∨ s.InBuffer w) ∧
      ∀ x ∈ seen, (s.storages x.2.value).space.isSome ∨ fitsInRegisters p x.1 x.2 = .ok true) h
    ⟨fun _ => .inl rfl, fun _ absent => nomatch absent⟩ fun seen x s s' _ ⟨kept, settled⟩ step => by
      refine ⟨fun w => ?_, fun y visited => ?_⟩
      · rcases createBufferIfNeeded_storages step w with same | stored
        · rcases kept w with original | stored
          · exact .inl (same.trans original)
          · exact .inr ⟨same ▸ stored.space, same ▸ stored.named⟩
        · exact .inr stored
      · rcases List.mem_append.mp visited with old | new
        · refine (settled y old).imp_left fun spaced => ?_
          rcases createBufferIfNeeded_storages step y.2.value with same | stored
          · rwa [same]
          · simp [stored.space]
        · obtain rfl := List.mem_singleton.mp new
          exact createBufferIfNeeded_settles step
  have spaced := (settled _ mem).resolve_right (by rw [spills]; exact fun same => nomatch same)
  refine (kept operand.value).resolve_left fun same => ?_
  rw [same, unset] at spaced
  cases spaced

end

/-! ## What stages 2 to 5 keep -/

/-- The memory space and buffer name of every value. -/
def StorageAnalysis.names (sa : StorageAnalysis) (v : Value) : Option MemorySpace × Option Nat :=
  ((sa.storages v).space, (sa.storages v).bufferName)

theorem extendLayout_names {p : Program} {sa sa' : StorageAnalysis} {owner : Nat}
    {operand : ValueOperand} (h : extendLayout p sa owner operand = .ok sa') :
    sa'.names = sa.names := by
  obtain ⟨layout, -, ⟨-, rfl⟩ | ⟨_, name, -, -, newLayout, newStorage, -, -, -, -, -, -, merged,
    rfl⟩⟩ := extendLayout_eq_ok h
  · rfl
  obtain ⟨result, rfl, -⟩ := ValueStorage.mergeLayout_eq_some merged
  funext w
  by_cases same : w = operand.value
  · subst same; simp [StorageAnalysis.names]
  · simp [StorageAnalysis.names, same]

theorem makeLayoutFullySpecified_names {sa sa' : StorageAnalysis} {value : Value}
    (h : makeLayoutFullySpecified sa value = .ok sa') : sa'.names = sa.names := by
  obtain ⟨layout, -, rfl⟩ := makeLayoutFullySpecified_eq_ok h
  funext w
  by_cases same : w = value
  · subst same; simp [StorageAnalysis.names]
  · simp [StorageAnalysis.names, same]

/-- Stages 3 to 5 change no memory space and no buffer name. -/
theorem names_of_stages {p : Program} {verify : Program → StorageAnalysis → Bool}
    {sa₂ sa₃ sa₄ sa : StorageAnalysis} (extended : extendLayouts p sa₂ = .ok sa₃)
    (finalized : makeLayoutsFullySpecified p sa₃ = .ok sa₄)
    (verified : verifyStorage p verify sa₄ = .ok sa) : sa.names = sa₂.names := by
  obtain ⟨rfl, -⟩ := verifyStorage_eq_ok verified
  calc (minimizeBufferLoopNests p sa₄).names = sa₄.names := rfl
    _ = sa₃.names := foldlM_keeps _ finalized fun _ _ _ _ => makeLayoutFullySpecified_names
    _ = sa₂.names := foldlM_keeps _ extended fun _ _ _ _ => extendLayout_names

/-- Stage 2 sets the unset memory space of every value to `register` and keeps its buffer name. -/
theorem initializeStorages_names {p : Program} {sa sa' : StorageAnalysis} {v : Value}
    (h : initializeStorages p sa = .ok sa') (mem : v ∈ p.valueResults) :
    sa'.names v = ((sa.storages v).space.or (some .register), (sa.storages v).bufferName) := by
  have walk := foldlM_prefix (fun seen s => s.names v =
    (if v ∈ seen then (sa.storages v).space.or (some .register) else (sa.storages v).space,
      (sa.storages v).bufferName)) h (by simp [StorageAnalysis.names]) ?_
  · simpa [mem] using walk
  intro seen x s s' _ hold step
  obtain ⟨rank, rfl, -⟩ := initializeStorage_eq_ok step
  simp only [StorageAnalysis.names, Prod.mk.injEq] at hold ⊢
  by_cases same : v = x
  · subst same
    simp only [Function.update_same, hold, List.mem_append, List.mem_singleton, or_true, if_true,
      and_true]
    split <;> cases (sa.storages v).space <;> rfl
  · simp [same, hold]

/-- A value of a compute operation that has no memory space yet and an operand that does not fit
in registers is committed to memory, in a buffer. -/
theorem memory_of_not_fitsInRegisters {p p' : Program} {verify : Program → StorageAnalysis → Bool}
    {sa₀ : StorageAnalysis} {v : Value} (h : runOnProgram p verify sa₀ = .ok p')
    (hv : p.IsValue v) (compute : (p.op v.op).isCompute = true)
    (unset : (sa₀.storages v).space = none)
    (spilled : ∃ owner operand, (owner, operand) ∈ p.valueOperands ∧ operand.value = v ∧
      fitsInRegisters p owner operand = .ok false) :
    ∃ attr, (p'.op v.op).storage[v.result]? = some (some attr) ∧ attr.space = some .memory ∧
      attr.bufferName.isSome := by
  obtain ⟨owner, operand, mem, rfl, spills⟩ := spilled
  obtain ⟨sa, stages, commit⟩ := except_bind_eq_ok.mp h
  obtain ⟨sa₁, sa₂, sa₃, sa₄, first, second, extended, finalized, verified⟩ :=
    storageStages_eq_ok stages
  have stored := createBuffers_inBuffer first mem spills unset
  -- stages 2 to 5 keep the memory space and the buffer name stage 1 gave
  have final : sa.names operand.value =
      (some .memory, (sa₁.storages operand.value).bufferName) := by
    rw [congrFun (names_of_stages extended finalized verified) _,
      initializeStorages_names second (Program.mem_valueResults.mpr hv), stored.space]
    rfl
  obtain ⟨attr, committed, written⟩ := commitStorages_storage commit hv compute
  obtain ⟨space, bufferName, -⟩ := bufferAttrOf_eq_ok written
  simp only [StorageAnalysis.names, Prod.mk.injEq] at final
  exact ⟨attr, committed, space.trans final.1, by rw [bufferName, final.2]; exact stored.named⟩

theorem memory_of_not_fitsInRegisters_crossProgram : ∃ p',
    runOnProgram crossProgram (fun _ _ => true) .empty = .ok p' ∧ crossProgram.IsValue ⟨0, 0⟩ ∧
    (crossProgram.op 0).isCompute = true ∧ (StorageAnalysis.empty.storages ⟨0, 0⟩).space = none ∧
    (∃ owner operand, (owner, operand) ∈ crossProgram.valueOperands ∧ operand.value = ⟨0, 0⟩ ∧
      fitsInRegisters crossProgram owner operand = .ok false) ∧
    ∃ attr, (p'.op 0).storage[0]? = some (some attr) ∧ attr.space = some .memory ∧
      attr.bufferName.isSome := by
  obtain ⟨p', ran⟩ : ∃ p', runOnProgram crossProgram (fun _ _ => true) .empty = .ok p' :=
    ⟨_, rfl⟩
  have spilled : ∃ owner operand, (owner, operand) ∈ crossProgram.valueOperands ∧
      operand.value = ⟨0, 0⟩ ∧ fitsInRegisters crossProgram owner operand = .ok false :=
    ⟨1, crossOperand, by decide, rfl, rfl⟩
  exact ⟨p', ran, by decide, rfl, rfl, spilled,
    @memory_of_not_fitsInRegisters _ _ _ _ ⟨0, 0⟩ ran (by decide) rfl rfl spilled⟩

/-! ## What each step does to the loop nests -/

section

variable {p : Program} {s s' : StorageAnalysis}

@[simp] theorem StorageAnalysis.addDimensionsToBuffer_loopNests (name : Nat)
    (newLayout : MappingAttr) : (s.addDimensionsToBuffer name newLayout).loopNests = s.loopNests := by
  funext n
  unfold StorageAnalysis.addDimensionsToBuffer
  split
  · rfl
  · next buffer found =>
    by_cases same : n = name
    · subst same; simp [StorageAnalysis.loopNests, found]
    · simp [StorageAnalysis.loopNests, same]

theorem initializeStorage_loopNests {value : Value} (h : initializeStorage p s value = .ok s') :
    s'.loopNests = s.loopNests := by
  obtain ⟨rank, rfl, -⟩ := initializeStorage_eq_ok h
  rfl

theorem makeLayoutFullySpecified_loopNests {value : Value}
    (h : makeLayoutFullySpecified s value = .ok s') : s'.loopNests = s.loopNests := by
  obtain ⟨layout, -, rfl⟩ := makeLayoutFullySpecified_eq_ok h
  rfl

theorem extendLayout_loopNests {owner : Nat} {operand : ValueOperand}
    (h : extendLayout p s owner operand = .ok s') : s'.loopNests = s.loopNests := by
  obtain ⟨layout, -, ⟨-, rfl⟩ | ⟨_, name, -, -, newLayout, -, -, -, -, -, -, -, -, rfl⟩⟩ :=
    extendLayout_eq_ok h
  · rfl
  · exact StorageAnalysis.addDimensionsToBuffer_loopNests name newLayout

/-- `CreateBufferIfNeeded` keeps every buffer and may add one at a fresh name, with the loops of
the operand's owner, storing the operand's value in it. -/
theorem createBufferIfNeeded_loopNests (wf : s.WellFormed p) {owner : Nat} {operand : ValueOperand}
    (h : createBufferIfNeeded p s owner operand = .ok s') {name : Nat} {nest : List LoopName}
    (found : s'.loopNests name = some nest) :
    s.loopNests name = some nest ∨ s.loopNests name = none ∧
      nest = (p.iterationSpace owner).loopNames ∧
      (s'.storages operand.value).bufferName = some name := by
  rcases createBufferIfNeeded_eq_ok h with rfl | ⟨-, -, -, created⟩
  · exact .inl found
  obtain ⟨merged, hm, rfl⟩ := StorageAnalysis.createBuffer_eq_ok.mp created
  by_cases fresh : name = s.nextBufferId
  · subst fresh
    refine .inr ⟨by simp [StorageAnalysis.loopNests, wf.fresh _ le_rfl], ?_, ?_⟩
    · simpa [StorageAnalysis.loopNests, eq_comm] using found
    · simpa using mergeOption_some_right (ValueStorage.merge_eq_some.mp hm).2.1
  · exact .inl (by simpa [StorageAnalysis.loopNests, fresh] using found)

end

/-! ## Stage 1 -/

/-- Every buffer created since `sa` has the loops of an operation reading a value stored in it. -/
def CreatedByAccess (p : Program) (sa s : StorageAnalysis) : Prop :=
  ∀ name nest, s.loopNests name = some nest → sa.loopNests name = none →
    ∃ x ∈ p.valueOperands, (s.storages x.2.value).bufferName = some name ∧
      nest = (p.iterationSpace x.1).loopNames

theorem createBuffers_created {p : Program} {sa sa₁ : StorageAnalysis} (wf : sa.WellFormed p)
    (h : createBuffers p sa = .ok sa₁) : CreatedByAccess p sa sa₁ := by
  refine ( foldlM_prefix (fun _ s => s.WellFormed p ∧ CreatedByAccess p sa s) h
    ⟨wf, fun _ _ found absent => nomatch found.symm.trans absent⟩ ?_).2
  rintro seen ⟨owner, operand⟩ s s' visited ⟨wfs, hold⟩ step
  have mem : (owner, operand) ∈ p.valueOperands := visited.subset (by simp)
  refine ⟨wfs.createBufferIfNeeded step, fun name nest found absent => ?_⟩
  rcases createBufferIfNeeded_loopNests wfs step found with old | ⟨-, rfl, stored⟩
  · obtain ⟨x, mem, named, rfl⟩ := hold name nest old absent
    exact ⟨x, mem, ((wfs.advances_createBufferIfNeeded step).storages _).bufferName _ named, rfl⟩
  · exact ⟨(owner, operand), mem, stored, rfl⟩

/-! ## The loop nests the pass leaves -/

section

variable {p : Program} {verify : Program → StorageAnalysis → Bool} {sa sa' : StorageAnalysis}
  {name : Nat} {buffer : Buffer}

/-- The loop nest of every buffer the storage pass creates ends up the longest common prefix of
the loops of the operations that write or read a value stored in it: it does not depend on the
operand the walk created it for. -/
theorem storageStages_buffer_loopNests (wf : sa.WellFormed p)
    (h : storageStages p verify sa = .ok sa') (created : sa.buffers name = none)
    (found : sa'.buffers name = some buffer) :
    (∀ i ∈ bufferAccesses p sa' name, buffer.loopNest <+: (p.iterationSpace i).loopNames) ∧
    ∀ common, (∀ i ∈ bufferAccesses p sa' name, common <+: (p.iterationSpace i).loopNames) →
      common <+: buffer.loopNest := by
  obtain ⟨sa₁, sa₂, sa₃, sa₄, h₁, h₂, h₃, h₄, h₅⟩ := storageStages_eq_ok h
  obtain ⟨rfl, -⟩ := verifyStorage_eq_ok h₅
  -- stage 5 shrinks the loop nest the buffer had after stage 4
  obtain ⟨buffer₄, found₄, -⟩ := Option.map_eq_some'.mp found
  obtain ⟨loops, minimized, -, shared, longest⟩ := minimizeBufferLoopNests_buffer (p := p) found₄
  obtain rfl := Option.some.inj (found.symm.trans minimized)
  -- which stages 2 to 4 kept from stage 1, for an operation that still accesses the buffer
  have kept : sa₄.loopNests = sa₁.loopNests :=
    (foldlM_keeps _ h₄ fun _ _ _ _ => makeLayoutFullySpecified_loopNests).trans
      ((foldlM_keeps _ h₃ fun _ _ _ _ => extendLayout_loopNests).trans
        (foldlM_keeps _ h₂ fun _ _ _ _ => initializeStorage_loopNests))
  have first : sa₁.loopNests name = some buffer₄.loopNest := by
    rw [← kept]
    simp [StorageAnalysis.loopNests, found₄]
  obtain ⟨x, mem, named, creator⟩ :=
    createBuffers_created wf h₁ name _ first (by simp [StorageAnalysis.loopNests, created])
  have run₁ : Relation.ReflTransGen (StorageStep p verify) sa sa₁ := createBuffers_reflTransGen h₁
  have run : Relation.ReflTransGen (StorageStep p verify) sa₁ (minimizeBufferLoopNests p sa₄) :=
    (initializeStorages_reflTransGen h₂).trans ((extendLayouts_reflTransGen h₃).trans
      ((makeLayoutsFullySpecified_reflTransGen h₄).tail (.verifyStorage h₅)))
  have stillNamed := ((advances_of_reflTransGen (wellFormed_of_reflTransGen wf run₁) run).storages x.2.value).bufferName name named
  have accessed : x.1 ∈ bufferAccesses p (minimizeBufferLoopNests p sa₄) name :=
    List.mem_append_right _ (List.mem_map_of_mem _ (List.mem_filter.mpr
      ⟨mem, by simpa [StorageAnalysis.getStorage] using stillNamed⟩))
  refine ⟨shared, fun common each => longest common ?_ each⟩
  rw [creator]
  exact each x.1 accessed

theorem storageStages_buffer_loopNests_crossProgram : ∃ sa' buffer,
    StorageAnalysis.empty.WellFormed crossProgram ∧
    storageStages crossProgram (fun _ _ => true) .empty = .ok sa' ∧
    StorageAnalysis.empty.buffers 0 = none ∧ sa'.buffers 0 = some buffer ∧
    (∀ i ∈ bufferAccesses crossProgram sa' 0,
      buffer.loopNest <+: (crossProgram.iterationSpace i).loopNames) ∧
    ∀ common, (∀ i ∈ bufferAccesses crossProgram sa' 0,
      common <+: (crossProgram.iterationSpace i).loopNames) → common <+: buffer.loopNest := by
  obtain ⟨sa', buffer, stages, found⟩ : ∃ sa' buffer,
      storageStages crossProgram (fun _ _ => true) .empty = .ok sa' ∧
        sa'.buffers 0 = some buffer := ⟨_, _, rfl, rfl⟩
  exact ⟨sa', buffer, StorageAnalysis.wellFormed_empty crossProgram, stages, rfl, found,
    storageStages_buffer_loopNests (StorageAnalysis.wellFormed_empty crossProgram) stages rfl found⟩

/-- The buffer `crossProgram` needs is created for the read in loops `A, C` and ends up in loop
`A`, the loop the write in loops `A, B` shares with it. -/
example : ((createBuffers crossProgram .empty).toOption.bind (·.buffers 0)).map (·.loopNest) =
      some ["A", "C"] ∧
    ((storageStages crossProgram (fun _ _ => true) .empty).toOption.bind (·.buffers 0)).map
      (·.loopNest) = some ["A"] := by
  decide

end

end SairLowering
