import SairLowering.IterationSpace

/-!
# Storage analysis state

`ValueStorage`, `Buffer` and `StorageAnalysis` (`storage.h`) are not in the excerpted sources.
They are modelled from the spec (sections 3, 4.4 and 5): a per-value storage mapping that only
changes by merge (unify with the existing entry or fail), and named buffers with a rank, an
`is_external` flag and a loop nest.
-/

namespace SairLowering

/-- What went wrong when a storage step does not succeed: a diagnostic (`emitError`, the pass
fails) or a crash (a failed `assert`/`AssertSuccess`, or a null attribute used). -/
inductive Fault where
  | error (message : String)
  | crash (reason : String)
  deriving DecidableEq, Repr

/-- `AssertSuccess`: a failed merge aborts. -/
def assertSuccess {α : Type} : Option α → Except Fault α
  | some a => .ok a
  | none => .error (.crash "AssertSuccess")

/-- Unifies an optional attribute with another: an unset side yields to the other, two set sides
must agree. -/
def mergeOption {α : Type} [DecidableEq α] : Option α → Option α → Option (Option α)
  | a, none => some a
  | none, some b => some (some b)
  | some a, some b => if a = b then some (some a) else none

/-- Unifies optional layouts. -/
def mergeLayouts : Option MappingAttr → Option MappingAttr → Option (Option MappingAttr)
  | l, none => some l
  | none, some m => some (some m)
  | some l, some m => (l.unify m).map some

/-- Modelled from the spec: the storage of one value. -/
structure ValueStorage where
  space : Option MemorySpace := none
  bufferName : Option Nat := none
  layout : Option MappingAttr := none
  deriving DecidableEq, Repr, Inhabited

namespace ValueStorage

/-- `MergeSpace`. -/
def mergeSpace (s : ValueStorage) (space : MemorySpace) : Option ValueStorage :=
  (mergeOption s.space (some space)).map fun space => { s with space }

/-- `MergeLayout`: an unset layout takes the new one, a set layout is unified with it. -/
def mergeLayout (s : ValueStorage) (layout : MappingAttr) : Option ValueStorage :=
  (mergeLayouts s.layout (some layout)).map fun layout => { s with layout }

/-- Modelled from the spec: merging two storages of one value unifies each field or fails. -/
def merge (s t : ValueStorage) : Option ValueStorage := do
  let space ← mergeOption s.space t.space
  let bufferName ← mergeOption s.bufferName t.bufferName
  let layout ← mergeLayouts s.layout t.layout
  pure ⟨space, bufferName, layout⟩

end ValueStorage

@[simp] theorem mergeOption_none_right {α : Type} [DecidableEq α] (a : Option α) :
    mergeOption a none = some a := by
  cases a <;> rfl

@[simp] theorem mergeOption_self {α : Type} [DecidableEq α] (a : Option α) :
    mergeOption a a = some a := by
  cases a <;> simp [mergeOption]

@[simp] theorem mergeOption_none_left {α : Type} [DecidableEq α] (b : Option α) :
    mergeOption none b = some b := by
  cases b <;> rfl

/-- Setting what is unset refines. -/
@[simp] theorem mergeOption_or {α : Type} [DecidableEq α] (a b : Option α) :
    mergeOption a (a.or b) = some (a.or b) := by
  cases a <;> cases b <;> simp [mergeOption]

@[simp] theorem mergeLayouts_none_right (l : Option MappingAttr) : mergeLayouts l none = some l := by
  cases l <;> rfl

@[simp] theorem mergeLayouts_self (l : Option MappingAttr) : mergeLayouts l l = some l := by
  cases l <;> simp [mergeLayouts, MappingAttr.unify_self]

@[simp] theorem mergeLayouts_none_left (l : Option MappingAttr) :
    mergeLayouts none l = some l := by
  cases l <;> rfl

@[simp] theorem mergeLayouts_or (a b : Option MappingAttr) :
    mergeLayouts a (a.or b) = some (a.or b) := by
  cases a <;> cases b <;> simp [mergeLayouts, MappingAttr.unify_self]

theorem mergeLayouts_idem {a b c : Option MappingAttr} (h : mergeLayouts a b = some c) :
    mergeLayouts a c = some c := by
  cases b with
  | none => simp only [mergeLayouts_none_right, Option.some.injEq] at h; simp [h]
  | some m =>
    cases a with
    | none => simp only [mergeLayouts, Option.some.injEq] at h; simp [← h, mergeLayouts]
    | some l =>
      obtain ⟨r, found, rfl⟩ := Option.map_eq_some'.mp h
      simp [mergeLayouts, MappingAttr.unify_idem found]

namespace ValueStorage

theorem merge_eq_some {s t u : ValueStorage} :
    s.merge t = some u ↔ mergeOption s.space t.space = some u.space ∧
      mergeOption s.bufferName t.bufferName = some u.bufferName ∧
      mergeLayouts s.layout t.layout = some u.layout := by
  cases u
  simp only [merge, Option.bind_eq_bind, Option.bind_eq_some, Option.pure_def, Option.some.injEq,
    ValueStorage.mk.injEq]
  constructor
  · rintro ⟨sp, hs, n, hn, l, hl, rfl, rfl, rfl⟩; exact ⟨hs, hn, hl⟩
  · rintro ⟨hs, hn, hl⟩; exact ⟨_, hs, _, hn, _, hl, rfl, rfl, rfl⟩

/-- Merging a storage with one of its own merges gives that merge back. -/
theorem merge_of_mergeLayout {s t : ValueStorage} {layout : MappingAttr}
    (h : s.mergeLayout layout = some t) : s.merge t = some t := by
  obtain ⟨l, found, rfl⟩ := Option.map_eq_some'.mp h
  exact merge_eq_some.mpr ⟨by simp, by simp, mergeLayouts_idem found⟩

@[simp] theorem merge_self (s : ValueStorage) : s.merge s = some s :=
  merge_eq_some.mpr ⟨by simp, by simp, by simp⟩

end ValueStorage

/-- Modelled from the spec: a buffer's rank, whether the caller allocates it (rank fixed), and
the loops across which it is shared. -/
structure Buffer where
  rank : Nat
  isExternal : Bool
  loopNest : List LoopName
  deriving DecidableEq, Repr

/-- Modelled from the spec: the storage analysis of one program. Buffers are keyed by name;
`nextBufferId` is where fresh names are drawn. -/
structure StorageAnalysis where
  storages : Value → ValueStorage
  buffers : Nat → Option Buffer
  nextBufferId : Nat

namespace StorageAnalysis

/-- `GetStorage`. -/
def getStorage (sa : StorageAnalysis) (value : Value) : ValueStorage := sa.storages value

/-- `GetBuffer`: looking up a name that is not a buffer is a crash. -/
def getBuffer (sa : StorageAnalysis) (name : Nat) : Except Fault Buffer :=
  match sa.buffers name with
  | some buffer => .ok buffer
  | none => .error (.crash "GetBuffer: no buffer with this name")

/-- Modelled from the spec: `MergeStorage` unifies `storage` into the value's entry; a conflict
is a crash. -/
def mergeStorage (sa : StorageAnalysis) (value : Value) (storage : ValueStorage) :
    Except Fault StorageAnalysis :=
  match (sa.storages value).merge storage with
  | some merged => .ok { sa with storages := Function.update sa.storages value merged }
  | none => .error (.crash "MergeStorage: conflicting storage")

/-- Modelled from the spec: `CreateBuffer` makes a rank-0 internal buffer under a fresh name,
shared across `loopNames`, and stores `value` in it. -/
def createBuffer (sa : StorageAnalysis) (value : Value) (loopNames : List LoopName) :
    Except Fault StorageAnalysis :=
  let name := sa.nextBufferId
  let sa := { sa with buffers := Function.update sa.buffers name (some ⟨0, false, loopNames⟩)
                      nextBufferId := name + 1 }
  sa.mergeStorage value { space := some .memory, bufferName := some name }

/-- Modelled from the spec: `AddDimensionsToBuffer` grows the rank of buffer `name` to the size
of `newLayout`. Every value stored in the buffer gets the new dimensions in front of its layout
as `unknown`: only the operand being extended knows them (source comment at lines 293-296). -/
def addDimensionsToBuffer (sa : StorageAnalysis) (name : Nat) (newLayout : MappingAttr) :
    StorageAnalysis :=
  match sa.buffers name with
  | none => sa
  | some buffer =>
    let numNewDims := newLayout.size - buffer.rank
    { sa with
      buffers := Function.update sa.buffers name (some { buffer with rank := newLayout.size })
      storages := fun value =>
        let storage := sa.storages value
        if storage.bufferName = some name then
          { storage with layout := storage.layout.map (·.addPrefix (List.replicate numNewDims .unknown)) }
        else storage }

end StorageAnalysis

end SairLowering
