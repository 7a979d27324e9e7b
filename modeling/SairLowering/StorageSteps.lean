import SairLowering.DefaultStorage
import Mathlib.Logic.Relation

/-!
# What each storage step can do

One lemma per step of `RunOnProgram` saying everything a successful call changes, so that the
invariant proofs never unfold the steps again; and the walk lemmas that turn a successful stage
(a `foldlM` over the program's operands or results) into a run of its steps.
-/

namespace SairLowering

open MappingExpr (dim unknown)

/-! ## Walks -/

theorem except_bind_eq_ok {ε α β : Type} {x : Except ε α} {f : α → Except ε β} {b : β} :
    x >>= f = .ok b ↔ ∃ a, x = .ok a ∧ f a = .ok b := by
  cases x <;> simp [bind, Except.bind]

theorem except_bind_eq_error {ε α β : Type} {x : Except ε α} {f : α → Except ε β} {e : ε} :
    x >>= f = .error e ↔ x = .error e ∨ ∃ a, x = .ok a ∧ f a = .error e := by
  cases x <;> simp [bind, Except.bind]

/-- A successful walk is a run of its steps. -/
theorem foldlM_reflTransGen {α β ε : Type} {f : β → α → Except ε β} {R : β → β → Prop}
    {l : List α} {a b : β} (walk : l.foldlM f a = .ok b)
    (step : ∀ x ∈ l, ∀ s s', f s x = .ok s' → R s s') : Relation.ReflTransGen R a b := by
  induction l generalizing a with
  | nil => cases walk; exact .refl
  | cons x l ih =>
    obtain ⟨s, first, rest⟩ := except_bind_eq_ok.mp walk
    exact .head (step x (by simp) a s first) (ih rest fun y hy => step y (by simp [hy]))

/-- An invariant of the processed prefix of a walk holds at its end. -/
theorem foldlM_prefix {α β ε : Type} {f : β → α → Except ε β} {l : List α} {a b : β}
    (P : List α → β → Prop) (walk : l.foldlM f a = .ok b) (start : P [] a)
    (step : ∀ seen x s s', seen ++ [x] <+: l → P seen s → f s x = .ok s' → P (seen ++ [x]) s') :
    P l b := by
  suffices ∀ rest seen s, seen ++ rest = l → P seen s → rest.foldlM f s = .ok b → P l b from
    this l [] a rfl start walk
  intro rest
  induction rest with
  | nil => intro seen s split hold walk; cases walk; simpa [← split] using hold
  | cons x rest ih =>
    intro seen s split hold walk
    obtain ⟨s', first, walk⟩ := except_bind_eq_ok.mp walk
    exact ih (seen ++ [x]) s' (by simp [← split])
      (step seen x s s' ⟨rest, by simp [← split]⟩ hold first) walk

/-- A walk whose every step keeps `g` of the state keeps it. -/
theorem foldlM_keeps {α β γ ε : Type} {f : β → α → Except ε β} {l : List α} {a b : β} (g : β → γ)
    (walk : l.foldlM f a = .ok b) (step : ∀ x ∈ l, ∀ s s', f s x = .ok s' → g s' = g s) :
    g b = g a := by
  have run := foldlM_reflTransGen walk step
  clear walk
  induction run with
  | refl => rfl
  | tail _ last ih => exact last.trans ih

/-- A successful `mapM` relates each input to its output. -/
theorem mapM_eq_ok {α β ε : Type} {f : α → Except ε β} {l : List α} {l' : List β} :
    l.mapM f = .ok l' ↔ List.Forall₂ (fun a b => f a = .ok b) l l' := by
  induction l generalizing l' with
  | nil => rw [List.mapM_nil]; cases l' <;> simp [pure, Except.pure]
  | cons a l ih =>
    cases l' with
    | nil =>
      rw [List.mapM_cons]
      cases f a <;> cases l.mapM f <;> simp [bind, Except.bind, pure, Except.pure]
    | cons b bs =>
      rw [List.forall₂_cons, ← ih, List.mapM_cons]
      cases f a <;> cases l.mapM f <;> simp [bind, Except.bind, pure, Except.pure]

theorem mapM_eq_ok_map {α β ε : Type} {f : α → Except ε β} {g : α → β} {l : List α}
    (each : ∀ x ∈ l, f x = .ok (g x)) : l.mapM f = .ok (l.map g) :=
  mapM_eq_ok.mpr (List.forall₂_map_right_iff.mpr (List.forall₂_same.mpr each))

theorem mapM_eq_error {α β ε : Type} {f : α → Except ε β} {l : List α} {e : ε}
    (h : l.mapM f = .error e) : ∃ x ∈ l, f x = .error e := by
  induction l with
  | nil => cases h
  | cons x l ih =>
    rw [List.mapM_cons] at h
    rcases except_bind_eq_error.mp h with failed | ⟨y, -, rest⟩
    · exact ⟨x, List.mem_cons_self x l, failed⟩
    rcases except_bind_eq_error.mp rest with failed | ⟨ys, -, done⟩
    · obtain ⟨x', mem, found⟩ := ih failed
      exact ⟨x', List.mem_cons_of_mem x mem, found⟩
    · cases done

/-! ## Storage operations -/

namespace StorageAnalysis

theorem mergeStorage_eq_ok {sa sa' : StorageAnalysis} {value : Value} {storage : ValueStorage} :
    sa.mergeStorage value storage = .ok sa' ↔ ∃ merged,
      (sa.storages value).merge storage = some merged ∧
      sa' = { sa with storages := Function.update sa.storages value merged } := by
  unfold mergeStorage
  cases h : (sa.storages value).merge storage with
  | none => simp
  | some merged => simp [eq_comm]

/-- Merging in a storage that already refines the value's entry stores it. -/
theorem mergeStorage_of_merge {sa : StorageAnalysis} {value : Value} {storage : ValueStorage}
    (refines : (sa.storages value).merge storage = some storage) :
    sa.mergeStorage value storage =
      .ok { sa with storages := Function.update sa.storages value storage } := by
  simp [mergeStorage, refines]

theorem createBuffer_eq_ok {sa sa' : StorageAnalysis} {value : Value} {loopNames : List LoopName} :
    sa.createBuffer value loopNames = .ok sa' ↔ ∃ merged,
      (sa.storages value).merge { space := some .memory, bufferName := some sa.nextBufferId } =
        some merged ∧
      sa' = { storages := Function.update sa.storages value merged
              buffers := Function.update sa.buffers sa.nextBufferId (some ⟨0, false, loopNames⟩)
              nextBufferId := sa.nextBufferId + 1 } := by
  simp [createBuffer, mergeStorage_eq_ok]

@[simp] theorem addDimensionsToBuffer_nextBufferId (sa : StorageAnalysis) (name : Nat)
    (newLayout : MappingAttr) : (sa.addDimensionsToBuffer name newLayout).nextBufferId =
      sa.nextBufferId := by
  unfold addDimensionsToBuffer; split <;> rfl

theorem addDimensionsToBuffer_of_some {sa : StorageAnalysis} {name : Nat} {buffer : Buffer}
    (found : sa.buffers name = some buffer) (newLayout : MappingAttr) :
    sa.addDimensionsToBuffer name newLayout =
      { sa with
        buffers := Function.update sa.buffers name (some { buffer with rank := newLayout.size })
        storages := fun value =>
          if (sa.storages value).bufferName = some name then
            { sa.storages value with
              layout := (sa.storages value).layout.map
                (·.addPrefix (List.replicate (newLayout.size - buffer.rank) unknown)) }
          else sa.storages value } := by
  simp [addDimensionsToBuffer, found]

@[simp] theorem addDimensionsToBuffer_bufferName (sa : StorageAnalysis) (name : Nat)
    (newLayout : MappingAttr) (v : Value) :
    ((sa.addDimensionsToBuffer name newLayout).storages v).bufferName = (sa.storages v).bufferName := by
  unfold addDimensionsToBuffer; split
  · rfl
  · dsimp only; split <;> rfl

@[simp] theorem addDimensionsToBuffer_space (sa : StorageAnalysis) (name : Nat)
    (newLayout : MappingAttr) (v : Value) :
    ((sa.addDimensionsToBuffer name newLayout).storages v).space = (sa.storages v).space := by
  unfold addDimensionsToBuffer; split
  · rfl
  · dsimp only; split <;> rfl

@[simp] theorem addDimensionsToBuffer_layout_isSome (sa : StorageAnalysis) (name : Nat)
    (newLayout : MappingAttr) (v : Value) :
    ((sa.addDimensionsToBuffer name newLayout).storages v).layout.isSome =
      (sa.storages v).layout.isSome := by
  unfold addDimensionsToBuffer; split
  · rfl
  · dsimp only; split <;> simp

end StorageAnalysis

/-! ## Steps -/

/-- The communication volume of `operand`, read by the operation at `owner` (line 143). -/
def Program.operandVolume (p : Program) (owner : Nat) (operand : ValueOperand) : MappingAttr :=
  communicationVolume operand.mapping.size (p.iterationSpace operand.value.op) (p.iterationSpace owner)

/-- Line 151: layout `layout` of the operand's value determines every dimension of the operand's
communication volume. -/
def covers (p : Program) (owner : Nat) (operand : ValueOperand) (layout : MappingAttr) : Bool :=
  match ((p.iterationSpace operand.value.op).mapping.compose layout).inverse with
  | some layoutToOperand => (layoutToOperand.compose (p.operandVolume owner operand)).isSurjective
  | none => false

section

variable {p : Program} {sa sa' : StorageAnalysis} {owner : Nat} {operand : ValueOperand}

/-- A successful `InitializeStorage` sets the unset space to `register` and the unset layout to
`unknown` entries, one per dimension of the value's buffer. -/
theorem initializeStorage_eq_ok {value : Value} (h : initializeStorage p sa value = .ok sa') : ∃ rank,
      sa' = { sa with
        storages := Function.update sa.storages value
          { sa.storages value with
            space := (sa.storages value).space.or (some .register)
            layout := (sa.storages value).layout.or
              (some ⟨(p.iterationSpace value.op).mapping.size, List.replicate rank unknown⟩) } } ∧
      ((sa.storages value).bufferName = none → rank = 0) ∧
      ∀ name, (sa.storages value).bufferName = some name → (sa.storages value).layout = none →
        ∃ buffer, sa.buffers name = some buffer ∧ rank = buffer.rank := by
  rcases hs : sa.storages value with ⟨space, bufferName, layout⟩
  simp only [initializeStorage, StorageAnalysis.getStorage, hs] at h
  have store : ∀ t : ValueStorage, ({ space, bufferName, layout } : ValueStorage).merge t = some t →
      sa.mergeStorage value t = .ok sa' →
      sa' = { sa with storages := Function.update sa.storages value t } := by
    intro t refines hm
    rw [StorageAnalysis.mergeStorage_of_merge (hs ▸ refines)] at hm
    exact (Except.ok.inj hm).symm
  cases layout with
  | some L =>
    refine ⟨0, store _ ?_ ?_, by simp, by simp⟩
    · simp [ValueStorage.merge_eq_some, mergeOption_or]
    · cases space <;> simpa [assertSuccess, ValueStorage.mergeSpace, mergeOption] using h
  | none =>
    cases bufferName with
    | none =>
      refine ⟨0, store _ ?_ ?_, by simp, by simp⟩
      · simp [ValueStorage.merge_eq_some, mergeOption_or, mergeLayouts_or]
      · cases space <;> simpa [assertSuccess, ValueStorage.mergeSpace, ValueStorage.mergeLayout, mergeOption, mergeLayouts] using h
    | some name =>
      cases hb : sa.buffers name with
      | none => cases space <;> simp_all [StorageAnalysis.getBuffer, assertSuccess, ValueStorage.mergeSpace, bind, Except.bind, pure, Except.pure, mergeOption, Functor.map, Except.map]
      | some buffer =>
        refine ⟨buffer.rank, store _ ?_ ?_, by simp, by simp [hb]⟩
        · simp [ValueStorage.merge_eq_some, mergeOption_or, mergeLayouts_or]
        · cases space <;> simpa [bind, Except.bind, pure, Except.pure, Functor.map, Except.map, StorageAnalysis.getBuffer, hb, assertSuccess, ValueStorage.mergeSpace, ValueStorage.mergeLayout, mergeOption, mergeLayouts] using h

theorem createBufferIfNeeded_eq_ok (h : createBufferIfNeeded p sa owner operand = .ok sa') :
    sa' = sa ∨ (sa.storages operand.value).space = none ∧
      fitsInRegisters p owner operand = .ok false ∧ operand.isIndex = false ∧
      sa.createBuffer operand.value (p.iterationSpace owner).loopNames = .ok sa' := by
  unfold createBufferIfNeeded at h
  cases hs : (sa.storages operand.value).space with
  | some space => simp_all [StorageAnalysis.getStorage, pure, Except.pure]
  | none =>
    cases hf : fitsInRegisters p owner operand with
    | error e => simp_all [StorageAnalysis.getStorage, bind, Except.bind, pure, Except.pure]
    | ok fits =>
      cases fits <;> cases hi : operand.isIndex <;>
        simp_all [StorageAnalysis.getStorage, bind, Except.bind, pure, Except.pure, throw, throwThe, MonadExceptOf.throw]

/-- What a successful `ExtendLayout` did: nothing, because the layout already covers the
communication volume, or the extension of lines 153-192. -/
theorem extendLayout_eq_ok (h : extendLayout p sa owner operand = .ok sa') :
    ∃ layout, (sa.storages operand.value).layout = some layout ∧
      (covers p owner operand layout = true ∧ sa' = sa ∨
        ∃ layoutToOperand name buffer numNewDims newLayout newStorage,
          ((p.iterationSpace operand.value.op).mapping.compose layout).inverse = some layoutToOperand ∧
          (layoutToOperand.compose (p.operandVolume owner operand)).isSurjective = false ∧
          (sa.storages operand.value).bufferName = some name ∧ sa.buffers name = some buffer ∧
          buffer.isExternal = false ∧
          extendedLayout (p.iterationSpace operand.value.op).mapping layout
            (p.operandVolume owner operand) buffer.rank
            (layoutToOperand.compose (p.operandVolume owner operand)) = some (numNewDims, newLayout) ∧
          ((sa.addDimensionsToBuffer name newLayout).storages operand.value).mergeLayout newLayout =
            some newStorage ∧
          sa' = { sa.addDimensionsToBuffer name newLayout with
            storages := Function.update (sa.addDimensionsToBuffer name newLayout).storages
              operand.value newStorage }) := by
  unfold extendLayout at h
  cases hl : (sa.storages operand.value).layout with
  | none => simp [StorageAnalysis.getStorage, hl, nonNull, bind, Except.bind] at h
  | some layout =>
  refine ⟨layout, rfl, ?_⟩
  cases hi : ((p.iterationSpace operand.value.op).mapping.compose layout).inverse with
  | none => simp [StorageAnalysis.getStorage, hl, hi, nonNull, bind, Except.bind] at h
  | some layoutToOperand =>
  have volume : communicationVolume operand.mapping.size (p.iterationSpace operand.value.op)
      (p.iterationSpace owner) = p.operandVolume owner operand := rfl
  simp only [StorageAnalysis.getStorage, hl, hi, nonNull, bind, Except.bind, volume] at h
  cases hsurj : (layoutToOperand.compose (p.operandVolume owner operand)).isSurjective
  · right
    simp only [hsurj, Bool.false_eq_true, ↓reduceIte] at h
    cases hn : (sa.storages operand.value).bufferName with
    | none => simp [hn, throw, throwThe, MonadExceptOf.throw, pure, Except.pure] at h
    | some name =>
    cases hb : sa.buffers name with
    | none => simp [hn, hb, StorageAnalysis.getBuffer, pure, Except.pure] at h
    | some buffer =>
    simp only [hn, hb, StorageAnalysis.getBuffer, pure, Except.pure] at h
    cases hx : buffer.isExternal
    · cases he : extendedLayout (p.iterationSpace operand.value.op).mapping layout
          (p.operandVolume owner operand) buffer.rank
          (layoutToOperand.compose (p.operandVolume owner operand)) with
      | none => simp [hx, he] at h
      | some result =>
      obtain ⟨numNewDims, newLayout⟩ := result
      simp only [hx, he] at h
      cases hm : ((sa.addDimensionsToBuffer name newLayout).storages operand.value).mergeLayout newLayout with
      | none => simp [StorageAnalysis.getStorage, hm, assertSuccess] at h
      | some newStorage =>
      simp only [StorageAnalysis.getStorage, hm, assertSuccess,
        StorageAnalysis.mergeStorage_of_merge (ValueStorage.merge_of_mergeLayout hm)] at h
      exact ⟨layoutToOperand, name, buffer, numNewDims, newLayout, newStorage, rfl, hsurj, rfl, hb,
        hx, he, hm, (Except.ok.inj h).symm⟩
    · simp [hx, throw, throwThe, MonadExceptOf.throw] at h
  · left
    simp [hsurj, pure, Except.pure] at h
    exact ⟨by simp [covers, hi, hsurj], h.symm⟩

/-- The new layout of lines 163-183 puts `numNewDims` dimensions in front of the old layout and
keeps its use domain. -/
theorem extendedLayout_size {defMapping layout volume toVolume newLayout : MappingAttr}
    {rank numNewDims : Nat}
    (h : extendedLayout defMapping layout volume rank toVolume = some (numNewDims, newLayout)) :
    newLayout.size = numNewDims + layout.size ∧ newLayout.useDomainSize = layout.useDomainSize := by
  simp only [extendedLayout, Option.bind_eq_bind, Option.bind_eq_some, Option.pure_def,
    Option.some.injEq, Prod.mk.injEq] at h
  obtain ⟨_, _, _, _, merged, unified, rfl, rfl⟩ := h
  obtain ⟨same, use, -⟩ := MappingAttr.unify_eq_some.mp unified
  refine ⟨by simpa using (MappingAttr.size_of_unify unified).1, ?_⟩
  rw [use, same]; rfl

theorem makeLayoutFullySpecified_eq_ok {value : Value} (h : makeLayoutFullySpecified sa value = .ok sa') :
    ∃ layout, (sa.storages value).layout = some layout ∧
      sa' = { sa with
        storages := Function.update sa.storages value
          { sa.storages value with layout := some layout.makeFullySpecified } } := by
  unfold makeLayoutFullySpecified at h
  cases hl : (sa.storages value).layout with
  | none => simp [StorageAnalysis.getStorage, hl, nonNull, bind, Except.bind] at h
  | some layout =>
    have found : (sa.storages value).mergeLayout layout.makeFullySpecified =
        some { sa.storages value with layout := some layout.makeFullySpecified } := by
      simp [ValueStorage.mergeLayout, hl, mergeLayouts, MappingAttr.unify_makeFullySpecified]
    simp only [StorageAnalysis.getStorage, hl, nonNull, bind, Except.bind, found, assertSuccess,
      StorageAnalysis.mergeStorage_of_merge (ValueStorage.merge_of_mergeLayout found)] at h
    exact ⟨layout, rfl, (Except.ok.inj h).symm⟩

@[simp] theorem minimizeBufferLoopNests_storages (p : Program) (sa : StorageAnalysis) :
    (minimizeBufferLoopNests p sa).storages = sa.storages := rfl

theorem verifyStorage_eq_ok {verify : Program → StorageAnalysis → Bool}
    (h : verifyStorage p verify sa = .ok sa') :
    sa' = minimizeBufferLoopNests p sa ∧ verify p sa' = true := by
  simp only [verifyStorage] at h
  split at h
  · next passed => cases h; exact ⟨rfl, passed⟩
  · cases h

theorem bufferAttrOf_eq_ok {iterSpace : IterationSpace} {storage : ValueStorage}
    {attr : BufferAttr} (h : bufferAttrOf iterSpace storage = .ok attr) :
    attr.space = storage.space ∧ attr.bufferName = storage.bufferName ∧
      (storage.layout = none → attr.layout = none) ∧
      ∀ layout, storage.layout = some layout → ∃ renamed loopNames,
        commitRenaming iterSpace layout.dependencyMask = .ok (renamed, loopNames) ∧
        attr.layout = some ⟨loopNames, (⟨loopNames.length, renamed⟩ : MappingAttr).compose layout⟩ := by
  unfold bufferAttrOf at h
  cases hl : storage.layout with
  | none => simp [hl, bind, Except.bind, pure, Except.pure] at h; subst h; simp
  | some layout =>
    cases hr : commitRenaming iterSpace layout.dependencyMask with
    | error e => simp [hl, hr, bind, Except.bind] at h
    | ok result =>
      obtain ⟨renamed, loopNames⟩ := result
      simp [hl, hr, bind, Except.bind, pure, Except.pure] at h
      subst h; exact ⟨rfl, rfl, by simp, fun _ same => by cases same; exact ⟨renamed, loopNames, hr, rfl⟩⟩

theorem commitStorage_eq_ok {i : Nat} {op : SairOp} (h : commitStorage p sa i = .ok op) :
    ∃ attrs, op = { p.op i with storage := attrs.map some } ∧
      List.Forall₂ (fun r attr => bufferAttrOf (p.iterationSpace i) (sa.storages ⟨i, r⟩) = .ok attr)
        (List.range (p.op i).results.length) attrs := by
  unfold commitStorage at h
  obtain ⟨attrs, found, committed⟩ := except_bind_eq_ok.mp h
  exact ⟨attrs, (Except.ok.inj committed).symm, mapM_eq_ok.mp found⟩

theorem commitStorages_eq_ok {p' : Program} (h : commitStorages p sa = .ok p') :
    p'.ops.length = p.ops.length ∧ ∀ i < p.ops.length,
      (p.op i).isCompute = false ∧ p'.op i = p.op i ∨
      (p.op i).isCompute = true ∧ commitStorage p sa i = .ok (p'.op i) := by
  unfold commitStorages at h
  obtain ⟨ops, found, done⟩ := except_bind_eq_ok.mp h
  cases done
  obtain ⟨same, each⟩ := List.forall₂_iff_get.mp (mapM_eq_ok.mp found)
  simp only [List.enum_length] at same
  refine ⟨same.symm, fun i bound => ?_⟩
  have step := each i (by simpa using bound) (same ▸ bound)
  simp only [List.get_eq_getElem, List.getElem_enum] at step
  have original : p.op i = p.ops[i] := by simp [Program.op, bound]
  have committed : (⟨ops⟩ : Program).op i = ops[i] := by simp [Program.op, same ▸ bound]
  rw [original, committed]
  cases hc : p.ops[i].isCompute <;> simp_all [pure, Except.pure]

/-- The attribute committed for a result of a compute operation is its final storage, as
`bufferAttrOf` writes it. -/
theorem commitStorages_storage {p' : Program} (h : commitStorages p sa = .ok p') {v : Value}
    (hv : p.IsValue v) (compute : (p.op v.op).isCompute = true) :
    ∃ attr, (p'.op v.op).storage[v.result]? = some (some attr) ∧
      bufferAttrOf (p.iterationSpace v.op) (sa.storages v) = .ok attr := by
  obtain ⟨-, each⟩ := commitStorages_eq_ok h
  rcases each v.op hv.1 with ⟨noncompute, -⟩ | ⟨-, committed⟩
  · simp [compute] at noncompute
  obtain ⟨attrs, op_eq, written⟩ := commitStorage_eq_ok committed
  obtain ⟨same, each⟩ := List.forall₂_iff_get.mp written
  have bound : v.result < (p.op v.op).results.length := (List.getElem?_eq_some_iff.mp hv.2).1
  have found := each v.result (by simpa using bound) (by simpa [← same] using bound)
  simp only [List.get_eq_getElem, List.getElem_range] at found
  refine ⟨_, ?_, found⟩
  rw [op_eq]
  simp [List.getElem?_eq_getElem (by simpa [← same] using bound : v.result < attrs.length)]

end

/-! ## Runs -/

/-- One successful call of a storage step on an operand or a result of `p`. Every stage of
`RunOnProgram` is a run of these steps, so what is proved for every run holds whatever order the
walks visit the operations in. -/
inductive StorageStep (p : Program) (verify : Program → StorageAnalysis → Bool) :
    StorageAnalysis → StorageAnalysis → Prop
  | createBufferIfNeeded {sa sa' : StorageAnalysis} {owner : Nat} {operand : ValueOperand} :
      (owner, operand) ∈ p.valueOperands → createBufferIfNeeded p sa owner operand = .ok sa' →
      StorageStep p verify sa sa'
  | initializeStorage {sa sa' : StorageAnalysis} {value : Value} :
      value ∈ p.valueResults → initializeStorage p sa value = .ok sa' → StorageStep p verify sa sa'
  | extendLayout {sa sa' : StorageAnalysis} {owner : Nat} {operand : ValueOperand} :
      (owner, operand) ∈ p.valueOperands → extendLayout p sa owner operand = .ok sa' →
      StorageStep p verify sa sa'
  | makeLayoutFullySpecified {sa sa' : StorageAnalysis} {value : Value} :
      value ∈ p.valueResults → makeLayoutFullySpecified sa value = .ok sa' →
      StorageStep p verify sa sa'
  | verifyStorage {sa sa' : StorageAnalysis} :
      verifyStorage p verify sa = .ok sa' → StorageStep p verify sa sa'

section

variable {p : Program} {verify : Program → StorageAnalysis → Bool} {sa sa' : StorageAnalysis}

theorem storageStages_eq_ok (h : storageStages p verify sa = .ok sa') :
    ∃ sa₁ sa₂ sa₃ sa₄, createBuffers p sa = .ok sa₁ ∧ initializeStorages p sa₁ = .ok sa₂ ∧
      extendLayouts p sa₂ = .ok sa₃ ∧ makeLayoutsFullySpecified p sa₃ = .ok sa₄ ∧
      verifyStorage p verify sa₄ = .ok sa' := by
  obtain ⟨sa₁, h₁, h⟩ := except_bind_eq_ok.mp h
  obtain ⟨sa₂, h₂, h⟩ := except_bind_eq_ok.mp h
  obtain ⟨sa₃, h₃, h⟩ := except_bind_eq_ok.mp h
  obtain ⟨sa₄, h₄, h⟩ := except_bind_eq_ok.mp h
  exact ⟨sa₁, sa₂, sa₃, sa₄, h₁, h₂, h₃, h₄, h⟩

theorem createBuffers_reflTransGen (h : createBuffers p sa = .ok sa') :
    Relation.ReflTransGen (StorageStep p verify) sa sa' :=
  foldlM_reflTransGen h fun _ mem _ _ step => .createBufferIfNeeded mem step

theorem initializeStorages_reflTransGen (h : initializeStorages p sa = .ok sa') :
    Relation.ReflTransGen (StorageStep p verify) sa sa' :=
  foldlM_reflTransGen h fun _ mem _ _ step => .initializeStorage mem step

theorem extendLayouts_reflTransGen (h : extendLayouts p sa = .ok sa') :
    Relation.ReflTransGen (StorageStep p verify) sa sa' :=
  foldlM_reflTransGen h fun _ mem _ _ step => .extendLayout mem step

theorem makeLayoutsFullySpecified_reflTransGen (h : makeLayoutsFullySpecified p sa = .ok sa') :
    Relation.ReflTransGen (StorageStep p verify) sa sa' :=
  foldlM_reflTransGen h fun _ mem _ _ step => .makeLayoutFullySpecified mem step


theorem storageStages_reflTransGen (h : storageStages p verify sa = .ok sa') :
    Relation.ReflTransGen (StorageStep p verify) sa sa' := by
  obtain ⟨sa₁, sa₂, sa₃, sa₄, h₁, h₂, h₃, h₄, h₅⟩ := storageStages_eq_ok h
  exact ((((createBuffers_reflTransGen h₁).trans (initializeStorages_reflTransGen h₂)).trans
    (extendLayouts_reflTransGen h₃)).trans (makeLayoutsFullySpecified_reflTransGen h₄)).tail
      (.verifyStorage h₅)
end

end SairLowering
