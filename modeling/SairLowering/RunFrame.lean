import SairLowering.StorageInvariants

/-!
# What the storage steps never take back

The spec says every stage of the storage pass only advances the state of a value, and that a
buffer is only changed by `AddDimensionsToBuffer` (more dimensions, internal buffers only) and
by loop-nest minimization (fewer loops). Over every run of the storage steps from a well-formed
analysis, whatever order the walks take, this holds: a memory space or a buffer name once set is
never changed, and a layout once set is never removed; a buffer is never removed and never
switches between external and internal, it only gains dimensions, an external one none, and its
loop nest only loses trailing loops; a buffer the run creates is internal and has a name that was
fresh when the run started.

Results:
1. `StorageAnalysis.Advances`, with one lemma per kind of step;
   `advances_of_reflTransGen`: every run advances the analysis.
2. `runOnProgram_keeps_storage`: the analysis `RunOnProgram` commits advances the one it starts
   from, and the attribute committed for a result of a compute operation keeps the memory space
   and the buffer name that analysis had set for it.
-/

namespace SairLowering

/-! ## The order -/

/-- How a buffer may change: it stays external or internal, its rank only grows and an external
buffer keeps it, and its loop nest only loses trailing loops. -/
structure Buffer.Evolves (b b' : Buffer) : Prop where
  isExternal : b'.isExternal = b.isExternal
  rank_le : b.rank ≤ b'.rank
  external_rank : b.isExternal = true → b'.rank = b.rank
  loopNest : b'.loopNest <+: b.loopNest

theorem Buffer.Evolves.refl (b : Buffer) : b.Evolves b := ⟨rfl, le_rfl, fun _ => rfl, List.prefix_refl _⟩

theorem Buffer.Evolves.trans {b b' b'' : Buffer} (h : b.Evolves b') (h' : b'.Evolves b'') :
    b.Evolves b'' where
  isExternal := h'.isExternal.trans h.isExternal
  rank_le := h.rank_le.trans h'.rank_le
  external_rank external := (h'.external_rank (h.isExternal.trans external)).trans
    (h.external_rank external)
  loopNest := h'.loopNest.trans h.loopNest

/-- `t` sets what `s` sets: the same memory space, the same buffer name, and a layout. -/
structure ValueStorage.Keeps (s t : ValueStorage) : Prop where
  space : ∀ x, s.space = some x → t.space = some x
  bufferName : ∀ n, s.bufferName = some n → t.bufferName = some n
  layout : s.layout.isSome → t.layout.isSome

theorem ValueStorage.Keeps.refl (s : ValueStorage) : s.Keeps s := ⟨fun _ => id, fun _ => id, id⟩

theorem ValueStorage.Keeps.trans {s t u : ValueStorage} (h : s.Keeps t) (h' : t.Keeps u) :
    s.Keeps u :=
  ⟨fun x set => h'.space x (h.space x set), fun n set => h'.bufferName n (h.bufferName n set),
    fun set => h'.layout (h.layout set)⟩

theorem mergeOption_keeps {α : Type} [DecidableEq α] {a b c : Option α}
    (h : mergeOption a b = some c) {x : α} (set : a = some x) : c = some x := by
  subst set
  cases b with
  | none => simpa using h.symm
  | some y =>
    simp only [mergeOption] at h
    split at h
    · exact (Option.some.inj h).symm
    · cases h

theorem mergeLayouts_isSome {a b c : Option MappingAttr} (h : mergeLayouts a b = some c)
    (set : a.isSome) : c.isSome := by
  obtain ⟨l, rfl⟩ := Option.isSome_iff_exists.mp set
  cases b with
  | none => simp only [mergeLayouts_none_right, Option.some.injEq] at h; simp [← h]
  | some m => obtain ⟨r, -, rfl⟩ := Option.map_eq_some'.mp h; rfl

/-- `MergeStorage` never overwrites: the merge keeps what the old storage sets. -/
theorem ValueStorage.keeps_of_merge {s t u : ValueStorage} (h : s.merge t = some u) : s.Keeps u :=
  let ⟨space, name, layout⟩ := merge_eq_some.mp h
  ⟨fun _ => mergeOption_keeps space, fun _ => mergeOption_keeps name, mergeLayouts_isSome layout⟩

/-- `sa'` is `sa` advanced by storage steps: every value keeps what it had set; every buffer is
still there and has evolved; a buffer only `sa'` has is internal and was named from
`sa.nextBufferId` on. -/
structure StorageAnalysis.Advances (sa sa' : StorageAnalysis) : Prop where
  storages : ∀ v, (sa.storages v).Keeps (sa'.storages v)
  nextBufferId : sa.nextBufferId ≤ sa'.nextBufferId
  buffers : ∀ name b, sa.buffers name = some b → ∃ b', sa'.buffers name = some b' ∧ b.Evolves b'
  created : ∀ name b', sa'.buffers name = some b' → sa.buffers name = none →
    sa.nextBufferId ≤ name ∧ b'.isExternal = false

namespace StorageAnalysis.Advances

variable {sa sa' sa'' : StorageAnalysis}

theorem refl (sa : StorageAnalysis) : sa.Advances sa :=
  ⟨fun _ => .refl _, le_rfl, fun _ b found => ⟨b, found, .refl b⟩,
    fun _ _ found free => by simp [free] at found⟩

theorem trans (h : sa.Advances sa') (h' : sa'.Advances sa'') : sa.Advances sa'' where
  storages v := (h.storages v).trans (h'.storages v)
  nextBufferId := h.nextBufferId.trans h'.nextBufferId
  buffers name b found := by
    obtain ⟨b', found', evolves⟩ := h.buffers name b found
    obtain ⟨b'', found'', evolves'⟩ := h'.buffers name b' found'
    exact ⟨b'', found'', evolves.trans evolves'⟩
  created name b'' found'' free := by
    cases found' : sa'.buffers name with
    | none =>
      obtain ⟨fresh, internal⟩ := h'.created name b'' found'' found'
      exact ⟨h.nextBufferId.trans fresh, internal⟩
    | some b' =>
      obtain ⟨fresh, internal⟩ := h.created name b' found' free
      obtain ⟨b₂, found₂, evolves⟩ := h'.buffers name b' found'
      cases found₂.symm.trans found''
      exact ⟨fresh, evolves.isExternal.trans internal⟩

/-- Then replacing the storage of one value by one that keeps it. -/
theorem update (h : sa.Advances sa') {v : Value} {t : ValueStorage}
    (keeps : (sa'.storages v).Keeps t) :
    sa.Advances { sa' with storages := Function.update sa'.storages v t } where
  storages w := by
    rcases eq_or_ne w v with rfl | other
    · simpa using (h.storages w).trans keeps
    · simpa [other] using h.storages w
  nextBufferId := h.nextBufferId
  buffers := h.buffers
  created := h.created

end StorageAnalysis.Advances

/-! ## Every step advances the analysis -/

section

variable {p : Program} {sa sa' : StorageAnalysis}

open StorageAnalysis (Advances)

/-- `CreateBuffer`'s new buffer, under a free name. -/
theorem advances_newBuffer (free : sa.buffers sa.nextBufferId = none) (loopNames : List LoopName) :
    sa.Advances { sa with
      buffers := Function.update sa.buffers sa.nextBufferId (some ⟨0, false, loopNames⟩)
      nextBufferId := sa.nextBufferId + 1 } where
  storages _ := .refl _
  nextBufferId := Nat.le_succ _
  buffers name b found := by
    have other : name ≠ sa.nextBufferId := fun same => by simp [same, free] at found
    exact ⟨b, by simpa [other] using found, .refl b⟩
  created name b' found unset := by
    by_cases same : name = sa.nextBufferId
    · subst same
      simp only [Function.update_same, Option.some.injEq] at found
      exact ⟨le_rfl, by simp [← found]⟩
    · simp [same, unset] at found

theorem advances_addDimensionsToBuffer {name : Nat} {buffer : Buffer} {newLayout : MappingAttr}
    (found : sa.buffers name = some buffer) (internal : buffer.isExternal = false)
    (grows : buffer.rank ≤ newLayout.size) : sa.Advances (sa.addDimensionsToBuffer name newLayout) where
  storages v := ⟨fun _ set => (StorageAnalysis.addDimensionsToBuffer_space _ _ _ _).trans set,
    fun _ set => (StorageAnalysis.addDimensionsToBuffer_bufferName _ _ _ _).trans set,
    fun set => (StorageAnalysis.addDimensionsToBuffer_layout_isSome _ _ _ _).trans set⟩
  nextBufferId := (StorageAnalysis.addDimensionsToBuffer_nextBufferId _ _ _).ge
  buffers n b hb := by
    rw [StorageAnalysis.addDimensionsToBuffer_of_some found]
    by_cases same : n = name
    · subst same
      cases found.symm.trans hb
      refine ⟨{ buffer with rank := newLayout.size }, by simp, rfl, grows, fun external => ?_, List.prefix_refl _⟩
      simp [internal] at external
    · exact ⟨b, by simpa [same] using hb, .refl b⟩
  created n b' hb' unset := by
    rw [StorageAnalysis.addDimensionsToBuffer_of_some found] at hb'
    have other : n ≠ name := fun same => by simp [same, found] at unset
    simp [other, unset] at hb'

theorem advances_minimizeBufferLoopNests : sa.Advances (minimizeBufferLoopNests p sa) where
  storages _ := .refl _
  nextBufferId := le_rfl
  buffers name b found := by
    simp only [minimizeBufferLoopNests, found, Option.map_some']
    exact ⟨_, rfl, rfl, le_rfl, fun _ => rfl, List.take_prefix _ _⟩
  created name b' found unset := by simp [minimizeBufferLoopNests, unset] at found

theorem StorageAnalysis.WellFormed.advances_createBufferIfNeeded (wf : sa.WellFormed p)
    {owner : Nat} {operand : ValueOperand} (h : SairLowering.createBufferIfNeeded p sa owner operand = .ok sa') :
    sa.Advances sa' := by
  rcases createBufferIfNeeded_eq_ok h with rfl | ⟨-, -, -, created⟩
  · exact .refl _
  obtain ⟨merged, found, rfl⟩ := StorageAnalysis.createBuffer_eq_ok.mp created
  exact (advances_newBuffer (wf.fresh _ le_rfl) _).update (ValueStorage.keeps_of_merge found)

theorem advances_initializeStorage {value : Value} (h : initializeStorage p sa value = .ok sa') :
    sa.Advances sa' := by
  obtain ⟨rank, rfl, -⟩ := initializeStorage_eq_ok h
  refine (Advances.refl sa).update ⟨fun _ set => by simp [set], fun _ => id, fun set => ?_⟩
  obtain ⟨layout, hl⟩ := Option.isSome_iff_exists.mp set
  simp [hl]

theorem StorageAnalysis.WellFormed.advances_extendLayout (wf : sa.WellFormed p) {owner : Nat}
    {operand : ValueOperand} (h : SairLowering.extendLayout p sa owner operand = .ok sa') : sa.Advances sa' := by
  obtain ⟨layout, hl, ⟨-, rfl⟩ | ⟨_, name, buffer, numNewDims, newLayout, newStorage, -, -, hn, hb,
    internal, extended, merged, rfl⟩⟩ := extendLayout_eq_ok h
  · exact .refl _
  have grows : buffer.rank ≤ newLayout.size := by
    have size := (extendedLayout_size extended).1
    have sized := wf.rank _ layout name buffer hl hn hb
    simp only [MappingAttr.size_def] at size sized ⊢
    omega
  exact (advances_addDimensionsToBuffer hb internal grows).update
    (ValueStorage.keeps_of_merge (ValueStorage.merge_of_mergeLayout merged))

theorem advances_makeLayoutFullySpecified {value : Value}
    (h : makeLayoutFullySpecified sa value = .ok sa') : sa.Advances sa' := by
  obtain ⟨layout, -, rfl⟩ := makeLayoutFullySpecified_eq_ok h
  exact (Advances.refl sa).update ⟨fun _ => id, fun _ => id, fun _ => rfl⟩

variable {verify : Program → StorageAnalysis → Bool}

theorem StorageStep.advances (wf : sa.WellFormed p) (step : StorageStep p verify sa sa') :
    sa.Advances sa' := by
  cases step with
  | createBufferIfNeeded _ h => exact wf.advances_createBufferIfNeeded h
  | initializeStorage _ h => exact advances_initializeStorage h
  | extendLayout _ h => exact wf.advances_extendLayout h
  | makeLayoutFullySpecified _ h => exact advances_makeLayoutFullySpecified h
  | verifyStorage h =>
    obtain ⟨rfl, -⟩ := verifyStorage_eq_ok h
    exact advances_minimizeBufferLoopNests

theorem advances_of_reflTransGen (wf : sa.WellFormed p)
    (run : Relation.ReflTransGen (StorageStep p verify) sa sa') : sa.Advances sa' := by
  induction run with
  | refl => exact .refl sa
  | tail run step ih => exact ih.trans (step.advances (wellFormed_of_reflTransGen wf run))

/-! ## What is committed -/

/-- `RunOnProgram` never overwrites storage it starts from: the analysis it commits advances the
one it starts from, and the attribute committed for every result of a compute operation has the
memory space and the buffer name that were set for it. -/
theorem runOnProgram_keeps_storage {p' : Program} (wf : sa.WellFormed p)
    (h : runOnProgram p verify sa = .ok p') :
    ∃ sa', storageStages p verify sa = .ok sa' ∧ sa.Advances sa' ∧
      ∀ v, p.IsValue v → (p.op v.op).isCompute = true → ∃ attr,
        (p'.op v.op).storage[v.result]? = some (some attr) ∧
        (∀ s, (sa.storages v).space = some s → attr.space = some s) ∧
        ∀ n, (sa.storages v).bufferName = some n → attr.bufferName = some n := by
  obtain ⟨sa', stages, commit⟩ := except_bind_eq_ok.mp h
  have advances := advances_of_reflTransGen wf (storageStages_reflTransGen stages)
  refine ⟨sa', stages, advances, fun v hv compute => ?_⟩
  obtain ⟨attr, stored, written⟩ := commitStorages_storage commit hv compute
  obtain ⟨space, name, -⟩ := bufferAttrOf_eq_ok written
  exact ⟨attr, stored, fun s set => space ▸ (advances.storages v).space s set,
    fun n set => name ▸ (advances.storages v).bufferName n set⟩

theorem runOnProgram_keeps_storage_crossProgram : ∃ p' sa',
    StorageAnalysis.empty.WellFormed crossProgram ∧
    runOnProgram crossProgram (fun _ _ => true) .empty = .ok p' ∧
    storageStages crossProgram (fun _ _ => true) .empty = .ok sa' ∧
    StorageAnalysis.empty.Advances sa' ∧
    ∀ v, crossProgram.IsValue v → (crossProgram.op v.op).isCompute = true → ∃ attr,
      (p'.op v.op).storage[v.result]? = some (some attr) ∧
      (∀ s, (StorageAnalysis.empty.storages v).space = some s → attr.space = some s) ∧
      ∀ n, (StorageAnalysis.empty.storages v).bufferName = some n → attr.bufferName = some n := by
  obtain ⟨p', ran⟩ : ∃ p', runOnProgram crossProgram (fun _ _ => true) .empty = .ok p' := ⟨_, rfl⟩
  obtain ⟨sa', stages, rest⟩ :=
    runOnProgram_keeps_storage (StorageAnalysis.wellFormed_empty crossProgram) ran
  exact ⟨p', sa', StorageAnalysis.wellFormed_empty crossProgram, ran, stages, rest⟩

end

end SairLowering
