import SairLowering.Program
import Mathlib.Data.List.Perm.Subperm

/-!
# Backward slices

`ComputeOpBackwardSliceAnalysis` (`sequence.h`, lines 69-104): the frontier of an operation, the
compute operations whose results it reads through non-compute operations only, and its backward
slice, the compute operations it transitively depends on. Only the class declaration is in the
excerpted sources. `ComputeFrontier`, `BackwardSlice` and `MergeSliceIfAvailable` are modelled
from the spec (section 4.5) and from the members the header declares: slices are computed on
demand with a worklist, kept in `slice_cache_`, and the cached slice of a frontier operation is
merged in instead of being walked again. The cache entry of the operation whose slice is being
computed exists from the start of its traversal, so a traversal that comes back to it merges the
slice being built.

Results:
1. `InSlice`: the slice as the spec defines it, the least set containing the frontier of the
   operation and the frontier of each of its members.
2. `sliceLoop_spec`: the worklist, started from a state that satisfies `SliceInv`, ends with
   that set when it has enough fuel.
3. `backwardSlice_queries`: over every sequence of queries, in any order, each answer is that
   set, whatever earlier queries cached.
-/

namespace SairLowering

/-! ## Operation sets -/

/-- `ConcreteOpSet::insert`: operations in insertion order, each once. -/
def opSetInsert (set : List Nat) (op : Nat) : List Nat :=
  if op ∈ set then set else set ++ [op]

/-- `ConcreteOpSet::merge`. -/
def opSetMerge (set other : List Nat) : List Nat :=
  other.foldl opSetInsert set

@[simp] theorem mem_opSetInsert {set : List Nat} {op x : Nat} :
    x ∈ opSetInsert set op ↔ x ∈ set ∨ x = op := by
  unfold opSetInsert
  split <;> simp_all [or_iff_left_of_imp]

theorem nodup_opSetInsert {set : List Nat} (nodup : set.Nodup) (op : Nat) :
    (opSetInsert set op).Nodup := by
  unfold opSetInsert
  split
  · exact nodup
  · next absent => exact nodup.append (List.nodup_singleton op) (by simpa using absent)

theorem length_opSetInsert (set : List Nat) (op : Nat) :
    (opSetInsert set op).length = if op ∈ set then set.length else set.length + 1 := by
  unfold opSetInsert; split <;> simp

@[simp] theorem mem_opSetMerge {set other : List Nat} {x : Nat} :
    x ∈ opSetMerge set other ↔ x ∈ set ∨ x ∈ other := by
  induction other generalizing set with
  | nil => simp [opSetMerge]
  | cons y other ih =>
    simp only [opSetMerge, List.foldl_cons] at ih ⊢
    rw [ih, mem_opSetInsert, List.mem_cons, or_assoc]

theorem nodup_opSetMerge {set : List Nat} (nodup : set.Nodup) (other : List Nat) :
    (opSetMerge set other).Nodup := by
  induction other generalizing set with
  | nil => exact nodup
  | cons y other ih => exact ih (nodup_opSetInsert nodup y)

/-! ## Frontiers -/

/-- The operations whose results operation `i` reads. -/
def Program.producers (p : Program) (i : Nat) : List Nat :=
  (p.op i).operands.map (·.value.op)

/-- Modelled from the spec: `ComputeFrontier`. The compute producers of `i`, and through each
non-compute producer not yet seen on the path, its own frontier. -/
def frontierSearch (p : Program) : Nat → List Nat → Nat → List Nat
  | 0, _, _ => []
  | fuel + 1, seen, i => (p.producers i).foldl (fun frontier j =>
      if (p.op j).isCompute then opSetInsert frontier j
      else if j ∈ seen then frontier
      else opSetMerge frontier (frontierSearch p fuel (j :: seen) j)) []

/-- `BackwardFrontier(op)`: the compute operations whose results `op` reads, through
non-compute operations only. A path visits each operation at most once, so one step per
operation is enough. -/
def backwardFrontier (p : Program) (i : Nat) : List Nat :=
  frontierSearch p (p.ops.length + 1) [i] i

theorem frontierSearch_spec (p : Program) (fuel : Nat) (seen : List Nat) (i : Nat) :
    (frontierSearch p fuel seen i).Nodup ∧
      ∀ j ∈ frontierSearch p fuel seen i, (p.op j).isCompute := by
  induction fuel generalizing seen i with
  | zero => simp [frontierSearch]
  | succ fuel ih =>
    unfold frontierSearch
    suffices ∀ (js acc : List Nat), acc.Nodup → (∀ j ∈ acc, (p.op j).isCompute) →
        (js.foldl (fun frontier j =>
          if (p.op j).isCompute then opSetInsert frontier j
          else if j ∈ seen then frontier
          else opSetMerge frontier (frontierSearch p fuel (j :: seen) j)) acc).Nodup ∧
        ∀ j ∈ js.foldl (fun frontier j =>
          if (p.op j).isCompute then opSetInsert frontier j
          else if j ∈ seen then frontier
          else opSetMerge frontier (frontierSearch p fuel (j :: seen) j)) acc,
          (p.op j).isCompute from this _ [] List.nodup_nil (by simp)
    intro js
    induction js with
    | nil => exact fun acc nodup compute => ⟨nodup, compute⟩
    | cons j js ihjs =>
      intro acc nodup compute
      simp only [List.foldl_cons]
      apply ihjs
      · split
        · exact nodup_opSetInsert nodup j
        · split
          · exact nodup
          · exact nodup_opSetMerge nodup _
      · split
        · next isCompute =>
          intro j' mem
          rcases mem_opSetInsert.mp mem with old | rfl
          · exact compute j' old
          · exact isCompute
        · split
          · exact compute
          · intro j' mem
            rcases mem_opSetMerge.mp mem with old | new
            · exact compute j' old
            · exact (ih (j :: seen) j).2 j' new

/-- The frontiers only read the operands and the compute flags of the operations. -/
theorem frontierSearch_congr {p q : Program} (producers : ∀ i, q.producers i = p.producers i)
    (compute : ∀ i, (q.op i).isCompute = (p.op i).isCompute) (fuel : Nat) (seen : List Nat)
    (i : Nat) : frontierSearch q fuel seen i = frontierSearch p fuel seen i := by
  induction fuel generalizing seen i with
  | zero => rfl
  | succ fuel ih => simp only [frontierSearch, producers, compute, ih]

theorem nodup_backwardFrontier (p : Program) (i : Nat) : (backwardFrontier p i).Nodup :=
  (frontierSearch_spec p _ [i] i).1

/-- A frontier operation is a compute operation of the program. -/
theorem lt_of_mem_backwardFrontier {p : Program} {i j : Nat} (mem : j ∈ backwardFrontier p i) :
    j < p.ops.length ∧ (p.op j).isCompute := by
  have compute := (frontierSearch_spec p _ [i] i).2 j mem
  refine ⟨Nat.lt_of_not_le fun beyond => ?_, compute⟩
  simp [Program.op, List.getD_eq_getElem?_getD, List.getElem?_eq_none beyond] at compute

/-! ## The slice the spec defines -/

/-- The backward slice of `op`: the least set of operations that contains the frontier of `op`
and the frontier of each of its members. -/
inductive InSlice (frontier : Nat → List Nat) (op : Nat) : Nat → Prop
  | base {x : Nat} : x ∈ frontier op → InSlice frontier op x
  | step {x y : Nat} : InSlice frontier op y → x ∈ frontier y → InSlice frontier op x

theorem InSlice.trans {frontier : Nat → List Nat} {a b c : Nat} (first : InSlice frontier a b)
    (second : InSlice frontier b c) : InSlice frontier a c := by
  induction second with
  | base mem => exact .step first mem
  | step _ mem ih => exact .step ih mem

/-! ## The cached worklist -/

/-- Modelled from the spec: `MergeSliceIfAvailable(op, slice)`. When the slice of `op` is
available, it is merged into `slice` together with `op`. The cache entry of `current`, the
operation whose slice is being computed, is `slice` itself. -/
def mergeSliceIfAvailable (cache : List (Nat × List Nat)) (current op : Nat) (slice : List Nat) :
    Option (List Nat) :=
  (if op = current then some slice else cache.lookup op).map fun cached =>
    opSetInsert (opSetMerge slice cached) op

/-- Modelled from the spec: the frontier of one operation is merged where its slice is available
and pushed on the worklist otherwise. -/
def pushFrontier (cache : List (Nat × List Nat)) (current : Nat) :
    List Nat → List Nat × List Nat → List Nat × List Nat
  | [], state => state
  | op :: ops, (slice, work) =>
    match mergeSliceIfAvailable cache current op slice with
    | some merged => pushFrontier cache current ops (merged, work)
    | none => pushFrontier cache current ops (slice, op :: work)

/-- Modelled from the spec: the worklist of `BackwardSlice`. An operation popped from the
worklist that is not in the slice yet joins it, and its frontier is pushed. -/
def sliceLoop (frontier : Nat → List Nat) (cache : List (Nat × List Nat)) (current : Nat) :
    Nat → List Nat × List Nat → List Nat
  | 0, (slice, _) => slice
  | _ + 1, (slice, []) => slice
  | fuel + 1, (slice, op :: work) =>
    if op ∈ slice then sliceLoop frontier cache current fuel (slice, work)
    else sliceLoop frontier cache current fuel
      (pushFrontier cache current (frontier op) (opSetInsert slice op, work))

/-- Modelled from the spec: `BackwardSlice(op)` on a program of `size` operations. A cached slice
is returned as is; otherwise the slice is computed and cached. Every operation joins the slice
at most once and pushes at most `size` operations, so the fuel is enough. -/
def backwardSlice (frontier : Nat → List Nat) (size : Nat) (cache : List (Nat × List Nat))
    (op : Nat) : List Nat × List (Nat × List Nat) :=
  match cache.lookup op with
  | some slice => (slice, cache)
  | none =>
    let slice := sliceLoop frontier cache op (size + (size + 1) * size + 1)
      (pushFrontier cache op (frontier op) ([], []))
    (slice, (op, slice) :: cache)

/-- A sequence of `BackwardSlice` queries on one analysis, in order. -/
def Program.sliceQueries (p : Program) :
    List (Nat × List Nat) → List Nat → List (List Nat)
  | _, [] => []
  | cache, op :: ops =>
    (backwardSlice (backwardFrontier p) p.ops.length cache op).1 ::
      p.sliceQueries (backwardSlice (backwardFrontier p) p.ops.length cache op).2 ops

/-! ## Correctness -/

/-- Every cached slice is the slice of its operation. -/
def CacheCorrect (frontier : Nat → List Nat) (cache : List (Nat × List Nat)) : Prop :=
  ∀ op slice, cache.lookup op = some slice → ∀ x, x ∈ slice ↔ InSlice frontier op x

/-- What the worklist keeps true while `pending`, the rest of the frontier of an operation that
joined the slice, waits to be pushed. -/
structure SliceInv (frontier : Nat → List Nat) (current : Nat) (slice work pending : List Nat) :
    Prop where
  nodup : slice.Nodup
  sound : ∀ x, x ∈ slice ∨ x ∈ work ∨ x ∈ pending → InSlice frontier current x
  closed : ∀ x ∈ slice, ∀ y ∈ frontier x, y ∈ slice ∨ y ∈ work ∨ y ∈ pending
  base : ∀ y ∈ frontier current, y ∈ slice ∨ y ∈ work ∨ y ∈ pending

section

variable {frontier : Nat → List Nat} {cache : List (Nat × List Nat)} {current op : Nat}
  {slice work ops : List Nat}

namespace SliceInv

/-- A frontier operation whose slice is not available is pushed. -/
theorem push (inv : SliceInv frontier current slice work (op :: ops)) :
    SliceInv frontier current slice (op :: work) ops := by
  refine ⟨inv.nodup, fun x mem => inv.sound x ?_, fun x mem y hy => ?_, fun y hy => ?_⟩
  · simpa only [List.mem_cons, or_assoc, or_left_comm] using mem
  · simpa only [List.mem_cons, or_assoc, or_left_comm] using inv.closed x mem y hy
  · simpa only [List.mem_cons, or_assoc, or_left_comm] using inv.base y hy

/-- A frontier operation whose slice is available is merged with it. The slice of `current`
itself is the slice being built: merging it adds `current` only, whose frontier is pending or
already in. -/
theorem merge (correct : CacheCorrect frontier cache)
    (inv : SliceInv frontier current slice work (op :: ops)) {merged : List Nat}
    (h : mergeSliceIfAvailable cache current op slice = some merged) :
    SliceInv frontier current merged work ops := by
  obtain ⟨cached, found, rfl⟩ := Option.map_eq_some'.mp h
  have inSlice := inv.sound op (by simp)
  -- what the merged slice brings: sound members whose frontiers are in
  have available : (∀ x ∈ cached, InSlice frontier current x) ∧
      ∀ x, x = op ∨ x ∈ cached → ∀ y ∈ frontier x,
        y ∈ slice ∨ y = op ∨ y ∈ cached ∨ y ∈ work ∨ y ∈ ops := by
    split at found
    · next self =>
      cases found
      subst self
      refine ⟨fun x mem => inv.sound x (.inl mem), fun x source y hy => ?_⟩
      have := source.elim (fun same => inv.base y (same ▸ hy)) fun mem => inv.closed x mem y hy
      simpa only [List.mem_cons, or_assoc, or_left_comm, or_self_left] using this
    · have closure := correct op cached found
      refine ⟨fun x mem => inSlice.trans ((closure x).mp mem), fun x source y hy => ?_⟩
      refine .inr (.inr (.inl ((closure y).mpr ?_)))
      rcases source with rfl | mem
      · exact .base hy
      · exact .step ((closure x).mp mem) hy
  refine ⟨nodup_opSetInsert (nodup_opSetMerge inv.nodup _) op, fun x mem => ?_,
    fun x mem y hy => ?_, fun y hy => ?_⟩
  · simp only [mem_opSetInsert, mem_opSetMerge] at mem
    rcases mem with ((old | new) | rfl) | inWork | inOps
    · exact inv.sound x (.inl old)
    · exact available.1 x new
    · exact inSlice
    · exact inv.sound x (.inr (.inl inWork))
    · exact inv.sound x (.inr (.inr (List.mem_cons_of_mem op inOps)))
  · simp only [mem_opSetInsert, mem_opSetMerge]
    simp only [mem_opSetInsert, mem_opSetMerge] at mem
    rcases mem with (old | new) | rfl
    · refine Or.imp_left (Or.imp_left Or.inl) ?_
      simpa only [List.mem_cons, or_assoc, or_left_comm] using inv.closed x old y hy
    · simpa only [or_assoc, or_left_comm] using available.2 x (.inr new) y hy
    · simpa only [or_assoc, or_left_comm] using available.2 x (.inl rfl) y hy
  · simp only [mem_opSetInsert, mem_opSetMerge]
    refine Or.imp_left (Or.imp_left Or.inl) ?_
    simpa only [List.mem_cons, or_assoc, or_left_comm] using inv.base y hy

/-- An operation popped from the worklist that is already in the slice is dropped. -/
theorem pop (inv : SliceInv frontier current slice (op :: work) []) (present : op ∈ slice) :
    SliceInv frontier current slice work [] := by
  refine ⟨inv.nodup, fun x mem => inv.sound x ?_, fun x mem y hy => ?_, fun y hy => ?_⟩
  · exact mem.imp_right (Or.imp_left (List.mem_cons_of_mem op))
  · have := inv.closed x mem y hy
    simp only [List.mem_cons] at this ⊢; rcases this with h | (rfl | h) | h <;> simp_all
  · have := inv.base y hy
    simp only [List.mem_cons] at this ⊢; rcases this with h | (rfl | h) | h <;> simp_all

/-- An operation popped from the worklist that is not in the slice joins it, with its frontier
pending. -/
theorem join (inv : SliceInv frontier current slice (op :: work) []) :
    SliceInv frontier current (opSetInsert slice op) work (frontier op) := by
  have inSlice := inv.sound op (by simp)
  refine ⟨nodup_opSetInsert inv.nodup op, fun x mem => ?_, fun x mem y hy => ?_, fun y hy => ?_⟩
  · simp only [mem_opSetInsert] at mem
    rcases mem with (old | rfl) | inWork | pending
    · exact inv.sound x (.inl old)
    · exact inSlice
    · exact inv.sound x (by simp [inWork])
    · exact .step inSlice pending
  · simp only [mem_opSetInsert] at mem ⊢
    rcases mem with old | rfl
    · have := inv.closed x old y hy
      simp only [List.mem_cons] at this; rcases this with h | (rfl | h) | h <;> simp_all
    · exact .inr (.inr hy)
  · simp only [mem_opSetInsert]
    have := inv.base y hy
    simp only [List.mem_cons] at this; rcases this with h | (rfl | h) | h <;> simp_all

end SliceInv

theorem SliceInv.pushFrontier (correct : CacheCorrect frontier cache)
    (inv : SliceInv frontier current slice work ops) :
    SliceInv frontier current (pushFrontier cache current ops (slice, work)).1
      (pushFrontier cache current ops (slice, work)).2 [] := by
  induction ops generalizing slice work with
  | nil => simpa [SairLowering.pushFrontier] using inv
  | cons op ops ih =>
    simp only [SairLowering.pushFrontier]
    split
    · next merged found => exact ih (inv.merge correct found)
    · exact ih inv.push

/-- Pushing a frontier keeps the slice and adds at most the frontier to the worklist. -/
theorem pushFrontier_grows (ops : List Nat) (slice work : List Nat) :
    (∀ x ∈ slice, x ∈ (pushFrontier cache current ops (slice, work)).1) ∧
      (pushFrontier cache current ops (slice, work)).2.length ≤ work.length + ops.length := by
  induction ops generalizing slice work with
  | nil => simp [pushFrontier]
  | cons op ops ih =>
    simp only [pushFrontier]
    split
    · next merged found =>
      obtain ⟨cached, -, rfl⟩ := Option.map_eq_some'.mp found
      obtain ⟨kept, bound⟩ := ih (opSetInsert (opSetMerge slice cached) op) work
      exact ⟨fun x mem => kept x (by simp [mem]), by simp only [List.length_cons]; omega⟩
    · obtain ⟨kept, bound⟩ := ih slice (op :: work)
      exact ⟨kept, by simp only [List.length_cons] at bound ⊢; omega⟩

theorem InSlice.exists_frontier {x : Nat} (h : InSlice frontier current x) :
    ∃ y, x ∈ frontier y := by
  cases h with
  | base mem => exact ⟨_, mem⟩
  | step _ mem => exact ⟨_, mem⟩

/-- With an empty worklist, the slice is closed and holds the whole slice. -/
theorem SliceInv.mem_iff (inv : SliceInv frontier current slice [] []) (x : Nat) :
    x ∈ slice ↔ InSlice frontier current x := by
  refine ⟨fun mem => inv.sound x (.inl mem), fun h => ?_⟩
  induction h with
  | base hy => simpa using inv.base _ hy
  | step _ hy ih => simpa using inv.closed _ ih _ hy

variable {n : Nat} (bounded : ∀ x, (frontier x).Nodup ∧ ∀ y ∈ frontier x, y < n)
include bounded

theorem SliceInv.length_le (inv : SliceInv frontier current slice work ops) : slice.length ≤ n := by
  have within : slice ⊆ List.range n := fun x mem => by
    obtain ⟨y, hy⟩ := (inv.sound x (.inl mem)).exists_frontier
    exact List.mem_range.mpr ((bounded y).2 x hy)
  simpa using (List.subperm_of_subset inv.nodup within).length_le

/-- The worklist ends with the slice when the fuel exceeds the number of operations on it plus
`n + 1` for every operation not in the slice yet: an operation that joins the slice pushes at
most `n`. -/
theorem sliceLoop_spec (correct : CacheCorrect frontier cache) {fuel : Nat}
    (inv : SliceInv frontier current slice work [])
    (enough : work.length + (n + 1) * (n - slice.length) < fuel) (x : Nat) :
    x ∈ sliceLoop frontier cache current fuel (slice, work) ↔ InSlice frontier current x := by
  induction fuel generalizing slice work with
  | zero => omega
  | succ fuel ih =>
    cases work with
    | nil => exact inv.mem_iff x
    | cons op work =>
      simp only [sliceLoop]
      split
      · next present =>
        exact ih (inv.pop present) (by simp only [List.length_cons] at enough; omega)
      · next absent =>
        have joined := (inv.join.pushFrontier correct)
        obtain ⟨kept, pushed⟩ := @pushFrontier_grows cache current (frontier op)
          (opSetInsert slice op) work
        refine ih joined ?_
        -- the slice grows by at least `op`, the worklist by at most a frontier
        have grown : slice.length + 1 ≤ (pushFrontier cache current (frontier op)
            (opSetInsert slice op, work)).1.length := by
          have := (List.subperm_of_subset (nodup_opSetInsert inv.nodup op) kept).length_le
          rwa [length_opSetInsert, if_neg absent] at this
        have full := joined.length_le bounded
        have small : (frontier op).length ≤ n := by
          simpa using (List.subperm_of_subset (bounded op).1
            fun y hy => List.mem_range.mpr ((bounded op).2 y hy)).length_le
        have weight : (n + 1) * (n - (pushFrontier cache current (frontier op)
            (opSetInsert slice op, work)).1.length) + (n + 1) ≤ (n + 1) * (n - slice.length) := by
          rw [← Nat.mul_succ]; exact Nat.mul_le_mul_left _ (by omega)
        simp only [List.length_cons] at enough
        omega
/-- One query: the answer is the slice of `op`, and the cache stays correct. -/
theorem backwardSlice_spec (correct : CacheCorrect frontier cache) (op : Nat) :
    (∀ x, x ∈ (backwardSlice frontier n cache op).1 ↔ InSlice frontier op x) ∧
      CacheCorrect frontier (backwardSlice frontier n cache op).2 := by
  unfold backwardSlice
  split
  · next slice found => exact ⟨correct op slice found, correct⟩
  · have start : SliceInv frontier op [] [] (frontier op) :=
      ⟨List.nodup_nil, fun x mem => .base (by simpa using mem), by simp, fun y hy => by simp [hy]⟩
    have pushed := start.pushFrontier correct
    obtain ⟨-, grown⟩ := @pushFrontier_grows cache op (frontier op) [] []
    have small : (frontier op).length ≤ n := by
      simpa using (List.subperm_of_subset (bounded op).1
        fun y hy => List.mem_range.mpr ((bounded op).2 y hy)).length_le
    have weight : (n + 1) * (n - (pushFrontier cache op (frontier op) ([], [])).1.length) ≤
        (n + 1) * n := Nat.mul_le_mul_left _ (Nat.sub_le _ _)
    have answer : ∀ x, x ∈ sliceLoop frontier cache op (n + (n + 1) * n + 1)
        (pushFrontier cache op (frontier op) ([], [])) ↔ InSlice frontier op x :=
      sliceLoop_spec bounded correct pushed (by simp only [List.length_nil] at grown; omega)
    refine ⟨answer, fun y slice found x => ?_⟩
    rw [List.lookup_cons] at found
    split at found
    · next same => cases found; rw [beq_iff_eq.mp same]; exact answer x
    · exact correct y slice found x

end

/-- Over every sequence of `BackwardSlice` queries, in any order and from an empty cache, each
answer is exactly the slice of its operation: the cache and `MergeSliceIfAvailable` never give
a partial slice. -/
theorem backwardSlice_queries (p : Program) (queries : List Nat) :
    List.Forall₂ (fun op slice => ∀ x, x ∈ slice ↔ InSlice (backwardFrontier p) op x) queries
      (p.sliceQueries [] queries) := by
  have bounded : ∀ x, (backwardFrontier p x).Nodup ∧ ∀ y ∈ backwardFrontier p x, y < p.ops.length :=
    fun x => ⟨nodup_backwardFrontier p x, fun y hy => (lt_of_mem_backwardFrontier hy).1⟩
  suffices ∀ cache, CacheCorrect (backwardFrontier p) cache →
      List.Forall₂ (fun op slice => ∀ x, x ∈ slice ↔ InSlice (backwardFrontier p) op x) queries
        (p.sliceQueries cache queries) from this [] fun _ _ found => by simp at found
  induction queries with
  | nil => exact fun _ _ => .nil
  | cons op queries ih =>
    intro cache correct
    have query := backwardSlice_spec bounded correct op
    exact .cons query.1 (ih _ query.2)

end SairLowering
