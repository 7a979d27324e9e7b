import SairLowering.StorageSteps

/-!
# Storage invariants

The storage analysis stays consistent with the program over every run of the storage steps,
whatever order the walks take.

Results:
1. `StorageAnalysis.WellFormed`: fresh buffer names are free, named buffers exist, a value with
   a layout has a memory space, and a layout reads the iteration space of its value's defining
   operation with one entry per dimension of its buffer. `wellFormed_of_reflTransGen`: every
   step keeps it.
2. `layouts_follow_buffers`: from the end of stage 2 on, every value has such a layout, and
   `ExtendLayout` moves every other value of the extended buffer by the new leading
   dimensions.
-/

namespace SairLowering

open MappingExpr (dim unknown)

/-! ## Merging a layout -/

theorem ValueStorage.mergeLayout_eq_some {s t : ValueStorage} {layout : MappingAttr}
    (h : s.mergeLayout layout = some t) : ∃ merged, t = { s with layout := some merged } ∧
      (s.layout = none ∧ merged = layout ∨ ∃ old, s.layout = some old ∧ old.unify layout = some merged) := by
  obtain ⟨l, found, rfl⟩ := Option.map_eq_some'.mp h
  cases hs : s.layout with
  | none => simp [hs, mergeLayouts] at found; exact ⟨layout, by simp [found], .inl ⟨rfl, rfl⟩⟩
  | some old =>
    simp only [hs, mergeLayouts, Option.map_eq_some'] at found
    obtain ⟨merged, unified, rfl⟩ := found
    exact ⟨merged, rfl, .inr ⟨old, rfl, unified⟩⟩

/-! ## The invariant -/

/-- The storage analysis is consistent with `p`. The analysis the pass starts from is the one
`StorageAnalysis` builds from the storage attributes already in the program, which it checks. -/
structure StorageAnalysis.WellFormed (p : Program) (sa : StorageAnalysis) : Prop where
  /-- Names from `nextBufferId` on are not taken. -/
  fresh : ∀ name, sa.nextBufferId ≤ name → sa.buffers name = none
  /-- A value only names a buffer that exists. -/
  named : ∀ v name, (sa.storages v).bufferName = some name → (sa.buffers name).isSome
  /-- A value with a layout has a memory space. -/
  spaced : ∀ v, (sa.storages v).layout.isSome → (sa.storages v).space.isSome
  /-- A layout reads the iteration space of the value's defining operation. -/
  useDomain : ∀ v layout, (sa.storages v).layout = some layout →
    layout.useDomainSize = (p.iterationSpace v.op).mapping.size
  /-- A layout has one entry per dimension of the value's buffer. -/
  rank : ∀ v layout name buffer, (sa.storages v).layout = some layout →
    (sa.storages v).bufferName = some name → sa.buffers name = some buffer →
    layout.size = buffer.rank

namespace StorageAnalysis.WellFormed

variable {p : Program} {sa sa' : StorageAnalysis} (wf : sa.WellFormed p)
include wf

theorem lt_nextBufferId {name : Nat} {buffer : Buffer}
    (found : sa.buffers name = some buffer) : name < sa.nextBufferId :=
  Nat.lt_of_not_le fun above => by simp [wf.fresh name above] at found

/-- Replacing the storage of one value by one with the same buffer and a fitting layout. -/
theorem update {v : Value} {t : ValueStorage}
    (bufferName_eq : t.bufferName = (sa.storages v).bufferName)
    (spaced : t.layout.isSome → t.space.isSome)
    (useDomain : ∀ layout, t.layout = some layout →
      layout.useDomainSize = (p.iterationSpace v.op).mapping.size)
    (rank : ∀ layout name buffer, t.layout = some layout → t.bufferName = some name →
      sa.buffers name = some buffer → layout.size = buffer.rank) :
    WellFormed p { sa with storages := Function.update sa.storages v t } where
  fresh := wf.fresh
  named w name := by
    rcases eq_or_ne w v with rfl | other
    · simp only [Function.update_same, bufferName_eq]; exact wf.named w name
    · simp only [Function.update_noteq other]; exact wf.named w name
  spaced w := by
    rcases eq_or_ne w v with rfl | other
    · simp only [Function.update_same]; exact spaced
    · simp only [Function.update_noteq other]; exact wf.spaced w
  useDomain w := by
    rcases eq_or_ne w v with rfl | other
    · simp only [Function.update_same]; exact useDomain
    · simp only [Function.update_noteq other]; exact wf.useDomain w
  rank w := by
    rcases eq_or_ne w v with rfl | other
    · simp only [Function.update_same]; exact rank
    · simp only [Function.update_noteq other]; exact wf.rank w

/-! ## Every step keeps it -/

theorem createBufferIfNeeded {owner : Nat} {operand : ValueOperand}
    (h : SairLowering.createBufferIfNeeded p sa owner operand = .ok sa') : sa'.WellFormed p := by
  rcases createBufferIfNeeded_eq_ok h with rfl | ⟨unset, -, -, created⟩
  · exact wf
  obtain ⟨merged, found, rfl⟩ := StorageAnalysis.createBuffer_eq_ok.mp created
  obtain ⟨-, named, laidOut⟩ := ValueStorage.merge_eq_some.mp found
  have unlaid : (sa.storages operand.value).layout = none := by
    simpa [unset] using mt (wf.spaced operand.value)
  have taken : ∀ w name, (sa.storages w).bufferName = some name → name ≠ sa.nextBufferId :=
    fun w name hn same => by simpa [same, wf.fresh _ le_rfl] using wf.named w name hn
  have unnamed : (sa.storages operand.value).bufferName = none := by
    cases hn : (sa.storages operand.value).bufferName with
    | none => rfl
    | some name => simp [hn, mergeOption, taken _ _ hn] at named
  simp only [unnamed, mergeOption_none_left, Option.some.injEq] at named
  simp only [unlaid, mergeLayouts_none_right, Option.some.injEq] at laidOut
  refine ⟨fun name above => ?_, fun w name hn => ?_, fun w => ?_, fun w => ?_, fun w => ?_⟩
  · dsimp only at above ⊢
    simp [Function.update_apply, show name ≠ sa.nextBufferId by omega, wf.fresh name (by omega)]
  · by_cases same : w = operand.value
    · subst same
      simp only [Function.update_same, ← named, Option.some.injEq] at hn
      subst hn; simp
    · simp only [same, Function.update_apply, if_false] at hn ⊢
      split <;> simp [wf.named w name hn]
  · by_cases same : w = operand.value
    · subst same; simp [← laidOut]
    · simpa [same] using wf.spaced w
  · by_cases same : w = operand.value
    · subst same; simp [← laidOut]
    · simpa [same] using wf.useDomain w
  · by_cases same : w = operand.value
    · subst same; simp [← laidOut]
    · intro layout name buffer hl hn hb
      simp only [same, Function.update_apply, if_false] at hl hn hb
      rw [if_neg (taken w name hn)] at hb
      exact wf.rank w layout name buffer hl hn hb

theorem initializeStorage {value : Value} (h : SairLowering.initializeStorage p sa value = .ok sa') :
    sa'.WellFormed p := by
  obtain ⟨rank, rfl, unnamed, named⟩ := initializeStorage_eq_ok h
  refine wf.update rfl (by simp) (fun layout hl => ?_) (fun layout name buffer hl hn hb => ?_)
  · cases hs : (sa.storages value).layout with
    | none => simp [hs] at hl; simp [← hl]
    | some old => simp [hs] at hl; exact hl ▸ wf.useDomain value old hs
  · cases hs : (sa.storages value).layout with
    | none =>
      simp [hs] at hl
      obtain ⟨found, hf, rfl⟩ := named name hn hs
      simp_all [← hl]
    | some old => simp [hs] at hl; exact hl ▸ wf.rank value old name buffer hs hn hb

theorem makeLayoutFullySpecified {value : Value}
    (h : SairLowering.makeLayoutFullySpecified sa value = .ok sa') : sa'.WellFormed p := by
  obtain ⟨layout, hl, rfl⟩ := makeLayoutFullySpecified_eq_ok h
  refine wf.update rfl (fun _ => ?_) (fun _ found => ?_) (fun _ name buffer found hn hb => ?_)
  · exact wf.spaced value (by simp [hl])
  · cases found; simpa using wf.useDomain value layout hl
  · cases found; simpa using wf.rank value layout name buffer hl hn hb

theorem verifyStorage {verify : Program → StorageAnalysis → Bool}
    (h : SairLowering.verifyStorage p verify sa = .ok sa') : sa'.WellFormed p := by
  obtain ⟨rfl, -⟩ := verifyStorage_eq_ok h
  refine ⟨fun name above => ?_, fun v name hn => ?_, wf.spaced, wf.useDomain,
    fun v layout name buffer hl hn hb => ?_⟩
  · simp [minimizeBufferLoopNests, wf.fresh name above]
  · simpa [minimizeBufferLoopNests] using wf.named v name hn
  · simp only [minimizeBufferLoopNests, Option.map_eq_some'] at hb
    obtain ⟨old, found, rfl⟩ := hb
    exact wf.rank v layout name old hl hn found

theorem addDimensionsToBuffer {name : Nat} {buffer : Buffer} {newLayout : MappingAttr}
    (found : sa.buffers name = some buffer) (grows : buffer.rank ≤ newLayout.size) :
    (sa.addDimensionsToBuffer name newLayout).WellFormed p := by
  rw [StorageAnalysis.addDimensionsToBuffer_of_some found]
  have below := wf.lt_nextBufferId found
  refine ⟨fun n above => ?_, fun v n hn => ?_, fun v => ?_, fun v => ?_, fun v => ?_⟩
  · have other : n ≠ name := by simp only at above; omega
    simp [Function.update_apply, other, wf.fresh n above]
  · by_cases inBuffer : (sa.storages v).bufferName = some name <;>
      simp only [inBuffer, if_true, if_false] at hn
    · cases Option.some.inj hn; simp [Function.update_apply]
    · have := wf.named v n hn
      simp only [Function.update_apply]; split <;> simp_all
  · by_cases inBuffer : (sa.storages v).bufferName = some name <;>
      simpa [inBuffer] using wf.spaced v
  · intro layout hl
    by_cases inBuffer : (sa.storages v).bufferName = some name <;>
      simp only [inBuffer, if_true, if_false, Option.map_eq_some'] at hl
    · obtain ⟨old, hold, rfl⟩ := hl
      simpa using wf.useDomain v old hold
    · exact wf.useDomain v layout hl
  · intro layout n b hl hn hb
    by_cases inBuffer : (sa.storages v).bufferName = some name <;>
      simp only [inBuffer, if_true, if_false, Option.map_eq_some'] at hl hn
    · obtain ⟨old, hold, rfl⟩ := hl
      cases Option.some.inj hn
      have := wf.rank v old name buffer hold inBuffer found
      simp at hb; cases hb
      simp only [MappingAttr.size_def, MappingAttr.dimensions_addPrefix, List.length_append, List.length_replicate] at this grows ⊢
      omega
    · have other : n ≠ name := fun same => inBuffer (same ▸ hn)
      simp only [Function.update_apply, other, if_false] at hb
      exact wf.rank v layout n b hl hn hb

theorem extendLayout {owner : Nat} {operand : ValueOperand}
    (h : SairLowering.extendLayout p sa owner operand = .ok sa') : sa'.WellFormed p := by
  obtain ⟨layout, hl, ⟨-, rfl⟩ | ⟨_, name, buffer, numNewDims, newLayout, newStorage, -, -, hn, hb,
    -, extended, merged, rfl⟩⟩ := extendLayout_eq_ok h
  · exact wf
  obtain ⟨size, use⟩ := extendedLayout_size extended
  have sized := wf.rank _ layout name buffer hl hn hb
  have grown : (sa.addDimensionsToBuffer name newLayout).WellFormed p :=
    wf.addDimensionsToBuffer hb (by simp only [MappingAttr.size_def] at size sized ⊢; omega)
  obtain ⟨result, rfl, fits⟩ := ValueStorage.mergeLayout_eq_some merged
  have fits : result.size = newLayout.size ∧
      result.useDomainSize = (p.iterationSpace operand.value.op).mapping.size := by
    rcases fits with ⟨-, rfl⟩ | ⟨old, hold, unified⟩
    · exact ⟨rfl, use.trans (wf.useDomain _ layout hl)⟩
    · exact ⟨(MappingAttr.size_of_unify unified).1,
        (MappingAttr.size_of_unify unified).2.trans (grown.useDomain _ old hold)⟩
  refine grown.update rfl (fun _ => ?_) (fun _ found => ?_) (fun _ n b found hn' hb' => ?_)
  · simpa using wf.spaced _ (by simp [hl])
  · cases found; exact fits.2
  · cases found
    simp only [StorageAnalysis.addDimensionsToBuffer_bufferName, hn, Option.some.injEq] at hn'
    subst hn'
    simp [StorageAnalysis.addDimensionsToBuffer_of_some hb] at hb'
    rw [fits.1, ← hb', MappingAttr.size_def]

theorem storageStep {verify : Program → StorageAnalysis → Bool}
    (step : StorageStep p verify sa sa') : sa'.WellFormed p := by
  cases step with
  | createBufferIfNeeded _ h => exact wf.createBufferIfNeeded h
  | initializeStorage _ h => exact wf.initializeStorage h
  | extendLayout _ h => exact wf.extendLayout h
  | makeLayoutFullySpecified _ h => exact wf.makeLayoutFullySpecified h
  | verifyStorage h => exact wf.verifyStorage h

end StorageAnalysis.WellFormed

/-- The storage analysis of a program without storage attributes. -/
def StorageAnalysis.empty : StorageAnalysis := ⟨fun _ => {}, fun _ => none, 0⟩

theorem StorageAnalysis.wellFormed_empty (p : Program) : StorageAnalysis.empty.WellFormed p :=
  ⟨fun _ _ => rfl, fun _ _ h => by simp [StorageAnalysis.empty] at h,
    fun _ h => by simp [StorageAnalysis.empty] at h, fun _ _ h => by simp [StorageAnalysis.empty] at h,
    fun _ _ _ _ h => by simp [StorageAnalysis.empty] at h⟩

theorem wellFormed_of_reflTransGen {p : Program} {verify : Program → StorageAnalysis → Bool}
    {sa sa' : StorageAnalysis} (wf : sa.WellFormed p)
    (run : Relation.ReflTransGen (StorageStep p verify) sa sa') : sa'.WellFormed p := by
  induction run with
  | refl => exact wf
  | tail _ step ih => exact ih.storageStep step

/-! ## Layouts are never taken away -/

section

variable {p : Program} {verify : Program → StorageAnalysis → Bool} {sa sa' : StorageAnalysis}

theorem StorageStep.layout_isSome (step : StorageStep p verify sa sa') {w : Value}
    (has : (sa.storages w).layout.isSome) : (sa'.storages w).layout.isSome := by
  cases step with
  | @createBufferIfNeeded _ operand _ h =>
    rcases createBufferIfNeeded_eq_ok h with rfl | ⟨-, -, -, created⟩
    · exact has
    obtain ⟨merged, found, rfl⟩ := StorageAnalysis.createBuffer_eq_ok.mp created
    have kept := (ValueStorage.merge_eq_some.mp found).2.2
    simp only [mergeLayouts_none_right, Option.some.injEq] at kept
    by_cases same : w = operand.value
    · subst same; simpa [← kept] using has
    · simpa [same] using has
  | @initializeStorage value _ h =>
    obtain ⟨rank, rfl, -⟩ := initializeStorage_eq_ok h
    by_cases same : w = value
    · subst same; simp
    · simpa [same] using has
  | @extendLayout _ operand _ h =>
    obtain ⟨layout, -, ⟨-, rfl⟩ | ⟨_, name, -, -, newLayout, newStorage, -, -, -, -, -, -, merged,
      rfl⟩⟩ := extendLayout_eq_ok h
    · exact has
    by_cases same : w = operand.value
    · subst same
      obtain ⟨result, rfl, -⟩ := ValueStorage.mergeLayout_eq_some merged
      simp
    · simpa [same] using has
  | @makeLayoutFullySpecified value _ h =>
    obtain ⟨layout, -, rfl⟩ := makeLayoutFullySpecified_eq_ok h
    by_cases same : w = value
    · subst same; simp
    · simpa [same] using has
  | verifyStorage h =>
    obtain ⟨rfl, -⟩ := verifyStorage_eq_ok h
    exact has

theorem layout_isSome_of_reflTransGen (run : Relation.ReflTransGen (StorageStep p verify) sa sa')
    {w : Value} (has : (sa.storages w).layout.isSome) : (sa'.storages w).layout.isSome := by
  induction run with
  | refl => exact has
  | tail _ step ih => exact step.layout_isSome ih

/-- After stage 2 every value has a layout. -/
theorem initializeStorages_layout (h : initializeStorages p sa = .ok sa') :
    ∀ v ∈ p.valueResults, (sa'.storages v).layout.isSome := by
  refine foldlM_prefix (fun seen s => ∀ v ∈ seen, (s.storages v).layout.isSome) h (by simp) ?_
  intro seen x s s' _ hold step v mem
  obtain ⟨rank, rfl, -⟩ := initializeStorage_eq_ok step
  by_cases same : v = x
  · subst same; simp
  · simp only [List.mem_append, List.mem_singleton, same, or_false] at mem
    simpa [same] using hold v mem

end


/-! ## Layouts follow buffers -/

section

variable {p : Program} {sa sa' : StorageAnalysis} {owner : Nat} {operand : ValueOperand}

/-- `ExtendLayout` grows the buffer it extends by some `k` dimensions and puts `k` `unknown`
entries in front of the layout of every other value stored in it; other buffers are untouched. -/
theorem StorageAnalysis.WellFormed.extendLayout_others (wf : sa.WellFormed p)
    (h : SairLowering.extendLayout p sa owner operand = .ok sa') {w : Value} {name : Nat}
    {buffer buffer' : Buffer} (other : w ≠ operand.value)
    (hn : (sa.storages w).bufferName = some name) (hb : sa.buffers name = some buffer)
    (hb' : sa'.buffers name = some buffer') :
    ∃ k, buffer'.rank = buffer.rank + k ∧ sa'.storages w =
      { sa.storages w with
        layout := (sa.storages w).layout.map (·.addPrefix (List.replicate k unknown)) } := by
  obtain ⟨layout, hl, ⟨-, rfl⟩ | ⟨_, extended, b, numNewDims, newLayout, newStorage, -, -, hn₀,
    hb₀, -, grown, -, rfl⟩⟩ := extendLayout_eq_ok h
  · rw [hb] at hb'; cases hb'; exact ⟨0, rfl, by simp⟩
  simp only [Function.update_noteq other]
  rw [StorageAnalysis.addDimensionsToBuffer_of_some hb₀] at hb' ⊢
  by_cases same : name = extended
  · subst same
    rw [hb] at hb₀; cases hb₀
    simp only [Function.update_same, Option.some.injEq] at hb'
    subst hb'
    have size := (extendedLayout_size grown).1
    have sized := wf.rank _ layout name buffer hl hn₀ hb
    refine ⟨newLayout.size - buffer.rank, ?_, by simp [hn]⟩
    simp only [MappingAttr.size_def] at size sized ⊢; omega
  · simp only [Function.update_noteq same, hb, Option.some.injEq] at hb'
    subst hb'
    refine ⟨0, rfl, ?_⟩
    dsimp only
    rw [if_neg (by simpa [hn] using same)]
    simp

/-- From the end of stage 2 until commit, every value has a layout that reads the iteration space
of its defining operation and has one entry per dimension of its buffer; and when
`ExtendLayout` grows a buffer by `k` dimensions, every other value stored in it gets `k` leading
`unknown` entries in front of its old ones. -/
theorem layouts_follow_buffers {verify : Program → StorageAnalysis → Bool}
    {sa₀ sa₂ : StorageAnalysis} (init : sa₀.WellFormed p)
    (stages : (createBuffers p sa₀ >>= initializeStorages p) = .ok sa₂)
    (run : Relation.ReflTransGen (StorageStep p verify) sa₂ sa) :
    (∀ v ∈ p.valueResults, ∃ layout, (sa.storages v).layout = some layout ∧
      layout.useDomainSize = (p.iterationSpace v.op).mapping.size ∧
      ∀ name, (sa.storages v).bufferName = some name →
        ∃ buffer, sa.buffers name = some buffer ∧ layout.size = buffer.rank) ∧
    ∀ owner operand sa', extendLayout p sa owner operand = .ok sa' →
      ∀ w name buffer buffer', w ≠ operand.value → (sa.storages w).bufferName = some name →
        sa.buffers name = some buffer → sa'.buffers name = some buffer' →
        ∃ k, buffer'.rank = buffer.rank + k ∧ sa'.storages w =
          { sa.storages w with
            layout := (sa.storages w).layout.map (·.addPrefix (List.replicate k unknown)) } := by
  obtain ⟨sa₁, first, second⟩ := except_bind_eq_ok.mp stages
  have wf : sa.WellFormed p := wellFormed_of_reflTransGen init
    (((createBuffers_reflTransGen first).trans (initializeStorages_reflTransGen second)).trans run)
  refine ⟨fun v mem => ?_, fun owner operand sa' h w name buffer buffer' other hn hb hb' =>
    wf.extendLayout_others h other hn hb hb'⟩
  obtain ⟨layout, hl⟩ := Option.isSome_iff_exists.mp
    (layout_isSome_of_reflTransGen run (initializeStorages_layout second v mem))
  refine ⟨layout, hl, wf.useDomain v layout hl, fun name hn => ?_⟩
  obtain ⟨buffer, hb⟩ := Option.isSome_iff_exists.mp (wf.named v name hn)
  exact ⟨buffer, hb, wf.rank v layout name buffer hl hn hb⟩

end

/-- A value made in loops `A, B` and read in loops `A, C`: it gets a buffer of rank one. -/
def crossProgram : Program := ⟨[
  { domain := [default, default], operands := [], results := [true], isCompute := true,
    loopNest := some [⟨"A", dim 0⟩, ⟨"B", dim 1⟩], sequence := none, storage := [none] },
  { domain := [default, default], operands := [⟨⟨0, 0⟩, ⟨2, [dim 0, dim 1]⟩, false⟩],
    results := [true], isCompute := true, loopNest := some [⟨"A", dim 0⟩, ⟨"C", dim 1⟩],
    sequence := none, storage := [none] }]⟩

theorem layouts_follow_buffers_crossProgram : ∃ sa₂ : StorageAnalysis,
    StorageAnalysis.empty.WellFormed crossProgram ∧
    (createBuffers crossProgram .empty >>= initializeStorages crossProgram) = .ok sa₂ ∧
    (∀ v ∈ crossProgram.valueResults, ∃ layout, (sa₂.storages v).layout = some layout ∧
      layout.useDomainSize = (crossProgram.iterationSpace v.op).mapping.size ∧
      ∀ name, (sa₂.storages v).bufferName = some name →
        ∃ buffer, sa₂.buffers name = some buffer ∧ layout.size = buffer.rank) := by
  refine ⟨_, StorageAnalysis.wellFormed_empty crossProgram, rfl, ?_⟩
  exact (layouts_follow_buffers (StorageAnalysis.wellFormed_empty crossProgram) rfl
    (.refl : Relation.ReflTransGen (StorageStep crossProgram fun _ _ => true) _ _)).1

end SairLowering
