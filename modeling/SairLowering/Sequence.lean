import SairLowering.BackwardSlice
import Mathlib.Data.List.Sort
import Mathlib.Data.Finset.Card
import Mathlib.Data.Finset.Lattice.Fold
import Mathlib.Data.Prod.Lex
import Mathlib.Algebra.Order.Ring.Int

/-!
# Sequence analysis and `UpdateSequence`

`UpdateSequence` (`default_lowering_attributes.cc`, lines 371-382) walks
`SequenceAnalysis::Ops()` and gives every compute operation the relative index it is paired with
as its new `sequence` attribute. `SequenceAnalysis` (`sequence.h`, lines 108-146) is declared
only. Its `sequenced_ops_` is a `std::multimap` from relative indices to compute operations,
because "the sequence numbers can be shared" (lines 112-115), and `ComputeDefaultSequence` numbers
every compute operation, keeping the relative order of the explicit numbers but not their values.
It is modelled from the spec (section 4.5). An operation is placed by its level, the largest
explicit number among itself and the operations it transitively reads, so that it never comes
before an operation whose result it consumes. Within a level, the operations bound to a numbered
operation of that level share its slot. The others follow, ordered by how many unbound operations
of the level they are or read, and unrelated ones are told apart by walk order. The relative
indices are the dense ranks of the places, so equal places share an index.

Results:
1. `chainProgram_breaks_order`: comparing a number with the frontier only is not enough. On a
   chain whose middle operation has no number the comparison holds, yet no numbering keeps the
   order of the explicit numbers and places every operation after its frontier.
2. `relativeIndex_le_of_frontier`, `updateSequence_after_frontier`: in every program, cycles
   through non-compute operations included, no operation gets a smaller index than an operation
   of its frontier.
3. `updateSequence_spec`: when no operation carries a smaller number than an operation of its
   backward slice, `Ops()` lists every compute operation once, `UpdateSequence` gives each its
   index, the indices keep the strict order of the explicit numbers, and no operation comes
   before an operation of its frontier. `updateSequence_preserves_order`: two numbered
   operations then compare by their new numbers as by their old ones, ties included.
4. `updateSequence_idempotent`: a second run of `UpdateSequence` keeps every number.
-/

namespace SairLowering

/-! ## Dense ranks -/

section

variable {α β γ : Type} [LinearOrder β] [LinearOrder γ] {l : List α} {f : α → β} {a b : α}

/-- The number of distinct values of `f` on `l` below `f a`: the position of `f a` when the
values are listed in increasing order, each once. -/
def denseRank (l : List α) (f : α → β) (a : α) : Nat :=
  ((l.map f).toFinset.filter (· < f a)).card

theorem denseRank_le_denseRank (le : f a ≤ f b) : denseRank l f a ≤ denseRank l f b :=
  Finset.card_le_card fun _ mem => by
    simp only [Finset.mem_filter] at mem ⊢
    exact ⟨mem.1, lt_of_lt_of_le mem.2 le⟩

theorem denseRank_lt_denseRank (mem : a ∈ l) (lt : f a < f b) :
    denseRank l f a < denseRank l f b := by
  refine Finset.card_lt_card ((Finset.ssubset_iff_of_subset fun _ below => ?_).mpr ⟨f a, ?_, ?_⟩)
  · simp only [Finset.mem_filter] at below ⊢
    exact ⟨below.1, below.2.trans lt⟩
  · simpa using ⟨⟨a, mem, rfl⟩, lt⟩
  · simp

theorem denseRank_congr {g : α → β} (same : ∀ x ∈ l, f x = g x) (mem : a ∈ l) :
    denseRank l f a = denseRank l g a := by
  simp only [denseRank, List.map_congr_left same, same a mem]

/-- Ranking the values through a map that is strictly monotone on them changes no rank. -/
theorem denseRank_comp {g : β → γ} (mono : StrictMonoOn g (l.map f).toFinset) (mem : a ∈ l) :
    denseRank l (g ∘ f) a = denseRank l f a := by
  have value : f a ∈ (l.map f).toFinset := by simpa using ⟨a, mem, rfl⟩
  have image : ((l.map f).map g).toFinset = (l.map f).toFinset.image g := by ext; simp
  rw [denseRank, ← List.map_map, image, Finset.filter_image,
    Finset.card_image_of_injOn (mono.injOn.mono (Finset.filter_subset _ _)), denseRank]
  exact congrArg Finset.card (Finset.filter_congr fun x mem' => mono.lt_iff_lt mem' value)

/-- The ranks of the values are strictly monotone on them, so ranking the ranks gives the ranks
back. -/
theorem denseRank_denseRank (mem : a ∈ l) : denseRank l (denseRank l f) a = denseRank l f a :=
  denseRank_comp (g := fun y => ((l.map f).toFinset.filter (· < y)).card)
    (fun _ ha _ hb lt => by
      obtain ⟨x, hx, rfl⟩ := List.mem_map.mp (List.mem_toFinset.mp ha)
      obtain ⟨y, -, rfl⟩ := List.mem_map.mp (List.mem_toFinset.mp hb)
      exact denseRank_lt_denseRank hx lt) mem

end

/-! ## The model -/

/-- The compute operations of the program, in walk order. -/
def Program.computeOps (p : Program) : List Nat :=
  (List.range p.ops.length).filter fun i => (p.op i).isCompute

/-- `BackwardSlice(u)`, asked of an analysis with an empty cache; `backwardSlice_queries` shows the
answer does not depend on the cache. -/
def Program.slice (p : Program) (u : Nat) : List Nat :=
  (backwardSlice (backwardFrontier p) p.ops.length [] u).1

/-- `w` is `u` or an operation of its backward slice. -/
def Program.InClosure (p : Program) (u w : Nat) : Prop :=
  w = u ∨ w ∈ p.slice u

instance (p : Program) : DecidableRel p.InClosure :=
  fun _ _ => inferInstanceAs (Decidable (_ ∨ _))

/-- The explicit `sequence` number of an operation, `⊥` when it has none. -/
def Program.explicitNumber (p : Program) (w : Nat) : WithBot Int :=
  (p.op w).sequence

/-- Modelled from the spec: the level of `u`, the largest explicit number among `u` and the
operations it transitively reads. -/
def Program.sequenceLevel (p : Program) (u : Nat) : WithBot Int :=
  (u :: p.slice u).toFinset.sup p.explicitNumber

/-- Modelled from the spec: `u` is numbered, or a numbered compute operation of its level
transitively reads it; then `u` shares the slot of the numbered operations of its level. -/
def Program.BoundToLevel (p : Program) (u : Nat) : Prop :=
  p.explicitNumber u ≠ ⊥ ∨ ∃ z ∈ p.computeOps,
    p.explicitNumber z ≠ ⊥ ∧ u ∈ p.slice z ∧ p.sequenceLevel z = p.sequenceLevel u

instance (p : Program) : DecidablePred p.BoundToLevel :=
  fun _ => inferInstanceAs (Decidable (_ ∨ ∃ z ∈ p.computeOps, _))

/-- The unbound compute operations of the level of `u` that are `u` or that `u` transitively
reads. -/
def Program.levelMates (p : Program) (u : Nat) : List Nat :=
  p.computeOps.filter fun w =>
    p.InClosure u w ∧ ¬ p.BoundToLevel w ∧ p.sequenceLevel w = p.sequenceLevel u

/-- The first compute operation in walk order that lies on a dependency cycle with `u`, or `u`
itself. -/
def Program.cycleRepresentative (p : Program) (u : Nat) : Nat :=
  (p.computeOps.find? fun w => p.InClosure u w ∧ p.InClosure w u).getD u

/-- Modelled from the spec: the place of `u` in `ComputeDefaultSequence`. Places compare by level
first. Within a level the bound operations come first, all in one place, then the others by their
number of level mates, with unrelated ones told apart by walk order. -/
def Program.sequencePlace (p : Program) (u : Nat) : WithBot Int ×ₗ (Nat ×ₗ Nat) :=
  toLex (p.sequenceLevel u, if p.BoundToLevel u then toLex (0, 0)
    else toLex ((p.levelMates u).length, p.cycleRepresentative u))

/-- Modelled from the spec: the relative index of `u`, its key in `sequenced_ops_`, the dense rank
of its place among those of the compute operations. -/
def Program.relativeIndex (p : Program) (u : Nat) : Nat :=
  denseRank p.computeOps p.sequencePlace u

/-- `SequenceAnalysis::Ops()`: the compute operations with their relative indices, in increasing
order of the index; operations that share an index come in walk order. -/
def Program.sequenceOps (p : Program) : List (Nat × Nat) :=
  (p.computeOps.insertionSort fun i j => p.relativeIndex i ≤ p.relativeIndex j).map
    fun i => (p.relativeIndex i, i)

/-- `op.SetSequence(index)` on operation `i`. -/
def Program.setSequence (p : Program) (i : Nat) (index : Int) : Program :=
  ⟨p.ops.modify (fun op => { op with sequence := some index }) i⟩

/-- `UpdateSequence` (lines 377-382): `for (auto [index, op] : Ops()) op.SetSequence(index);`. -/
def updateSequence (p : Program) : Program :=
  p.sequenceOps.foldl (fun q (index, i) => q.setSequence i index) p

/-- No operation carries a smaller explicit number than an operation of its backward slice. -/
def Program.NumbersFollowSlices (p : Program) : Prop :=
  ∀ u q x y, InSlice (backwardFrontier p) u q → (p.op u).sequence = some x →
    (p.op q).sequence = some y → y ≤ x

/-! ## Slices and levels -/

section

variable {p : Program} {u w q : Nat}

theorem mem_computeOps : u ∈ p.computeOps ↔ u < p.ops.length ∧ (p.op u).isCompute := by
  simp [Program.computeOps]

theorem nodup_computeOps (p : Program) : p.computeOps.Nodup := (List.nodup_range _).filter _

theorem mem_slice : w ∈ p.slice u ↔ InSlice (backwardFrontier p) u w :=
  (backwardSlice_spec
    (fun x => ⟨nodup_backwardFrontier p x, fun _ hy => (lt_of_mem_backwardFrontier hy).1⟩)
    (fun _ _ found => by simp at found) u).1 w

theorem mem_computeOps_of_mem_slice (h : w ∈ p.slice u) : w ∈ p.computeOps := by
  obtain ⟨_, hy⟩ := (mem_slice.mp h).exists_frontier
  exact mem_computeOps.mpr (lt_of_mem_backwardFrontier hy)

theorem mem_slice_trans {v : Nat} (first : v ∈ p.slice u) (second : w ∈ p.slice v) :
    w ∈ p.slice u :=
  mem_slice.mpr ((mem_slice.mp first).trans (mem_slice.mp second))

theorem Program.InClosure.trans {v : Nat} (first : p.InClosure u v) (second : p.InClosure v w) :
    p.InClosure u w := by
  rcases first with rfl | first <;> rcases second with rfl | second
  · exact .inl rfl
  · exact .inr second
  · exact .inr first
  · exact .inr (mem_slice_trans first second)

theorem Program.InClosure.mem_computeOps (hu : u ∈ p.computeOps) (h : p.InClosure u w) :
    w ∈ p.computeOps :=
  h.elim (· ▸ hu) mem_computeOps_of_mem_slice

theorem Program.InClosure.of_frontier (hq : q ∈ backwardFrontier p u) : p.InClosure u q :=
  .inr (mem_slice.mpr (.base hq))

theorem explicitNumber_of_sequence {x : Int} (h : (p.op w).sequence = some x) :
    p.explicitNumber w = x := by
  rw [Program.explicitNumber, h]; rfl

theorem sequenceLevel_le_iff {m : WithBot Int} :
    p.sequenceLevel u ≤ m ↔ ∀ w, p.InClosure u w → p.explicitNumber w ≤ m := by
  simp [Program.sequenceLevel, Finset.sup_le_iff, Program.InClosure]

theorem le_sequenceLevel (h : p.InClosure u w) : p.explicitNumber w ≤ p.sequenceLevel u :=
  sequenceLevel_le_iff.mp le_rfl w h

/-- An operation is at least at the level of every operation it transitively reads. -/
theorem sequenceLevel_mono (h : p.InClosure u w) : p.sequenceLevel w ≤ p.sequenceLevel u :=
  sequenceLevel_le_iff.mpr fun _ hv => le_sequenceLevel (h.trans hv)

/-- An operation that a bound operation transitively reads, at the same level, is bound. -/
theorem Program.BoundToLevel.of_closure (hu : u ∈ p.computeOps) (bound : p.BoundToLevel u)
    (h : p.InClosure u q) (same : p.sequenceLevel q = p.sequenceLevel u) : p.BoundToLevel q := by
  rcases h with rfl | h
  · exact bound
  rcases bound with numbered | ⟨z, hz, numbered, reads, level⟩
  · exact .inr ⟨u, hu, numbered, h, same.symm⟩
  · exact .inr ⟨z, hz, numbered, mem_slice_trans reads h, level.trans same.symm⟩

theorem levelMates_sublist (h : p.InClosure u q)
    (same : p.sequenceLevel q = p.sequenceLevel u) :
    (p.levelMates q).Sublist (p.levelMates u) :=
  List.monotone_filter_right _ fun _ mate => by
    simp only [decide_eq_true_eq] at mate ⊢
    exact ⟨h.trans mate.1, mate.2.1, mate.2.2.trans same⟩

theorem mem_levelMates_self (hu : u ∈ p.computeOps) (unbound : ¬ p.BoundToLevel u) :
    u ∈ p.levelMates u :=
  List.mem_filter.mpr ⟨hu, by simp [unbound, Program.InClosure]⟩

/-- The operations of one dependency cycle have one representative. -/
theorem cycleRepresentative_congr (hu : u ∈ p.computeOps) (h : p.InClosure u q)
    (back : p.InClosure q u) : p.cycleRepresentative q = p.cycleRepresentative u := by
  have same : (fun w => decide (p.InClosure q w ∧ p.InClosure w q)) =
      fun w => decide (p.InClosure u w ∧ p.InClosure w u) :=
    funext fun w => decide_eq_decide.mpr ⟨fun ⟨there, from'⟩ => ⟨h.trans there, from'.trans back⟩,
      fun ⟨there, from'⟩ => ⟨back.trans there, from'.trans h⟩⟩
  obtain ⟨r, found⟩ := Option.isSome_iff_exists.mp
    (List.find?_isSome.mpr ⟨u, hu, by simp [Program.InClosure]⟩ :
      (p.computeOps.find? fun w => p.InClosure u w ∧ p.InClosure w u).isSome)
  rw [Program.cycleRepresentative, Program.cycleRepresentative, same, found]
  rfl

/-- Places compare by level first. -/
theorem place_lt_of_level_lt {a b : WithBot Int} {x y : Nat ×ₗ Nat} (lt : a < b) :
    (toLex (a, x) : WithBot Int ×ₗ (Nat ×ₗ Nat)) < toLex (b, y) :=
  (Prod.Lex.lt_iff _ _).mpr (.inl lt)

theorem place_le_of_level_eq {a b : WithBot Int} {x y : Nat ×ₗ Nat} (same : a = b) (le : x ≤ y) :
    (toLex (a, x) : WithBot Int ×ₗ (Nat ×ₗ Nat)) ≤ toLex (b, y) :=
  (Prod.Lex.le_iff _ _).mpr (.inr ⟨same, le⟩)

theorem toLex_zero_le (m n : Nat) : (toLex (0, 0) : Nat ×ₗ Nat) ≤ toLex (m, n) :=
  (Prod.Lex.le_iff _ _).mpr (m.eq_zero_or_pos.elim (fun zero => .inr ⟨zero.symm, n.zero_le⟩) .inl)

/-- An operation is never placed before an operation it transitively reads. At a common level a
bound operation comes first; between unbound ones, the reader has more level mates unless they
lie on one cycle, where they share their representative. -/
theorem sequencePlace_le (hu : u ∈ p.computeOps) (h : p.InClosure u q) :
    p.sequencePlace q ≤ p.sequencePlace u := by
  rw [Program.sequencePlace, Program.sequencePlace]
  rcases (sequenceLevel_mono h).lt_or_eq with lower | same
  · exact (place_lt_of_level_lt lower).le
  refine place_le_of_level_eq same ?_
  by_cases bq : p.BoundToLevel q
  · rw [if_pos bq]
    split <;> exact toLex_zero_le _ _
  have bu : ¬ p.BoundToLevel u := fun bu => bq (bu.of_closure hu h same)
  rw [if_neg bq, if_neg bu, Prod.Lex.le_iff]
  have mates := levelMates_sublist h same
  rcases mates.length_le.lt_or_eq with fewer | equal
  · exact .inl fewer
  -- as many level mates: `q` reads `u` back, so both lie on one cycle
  have back : p.InClosure q u := by
    have mate := (List.mem_filter.mp (mates.eq_of_length equal ▸ mem_levelMates_self hu bu)).2
    exact (decide_eq_true_eq.mp mate).1
  exact .inr ⟨equal, (cycleRepresentative_congr hu h back).le⟩

theorem relativeIndex_le (hu : u ∈ p.computeOps) (h : p.InClosure u q) :
    p.relativeIndex q ≤ p.relativeIndex u :=
  denseRank_le_denseRank (sequencePlace_le hu h)

/-- In every program, dependency cycles included, no compute operation gets a smaller relative
index than an operation of its frontier. -/
theorem relativeIndex_le_of_frontier (hu : u ∈ p.computeOps) (hq : q ∈ backwardFrontier p u) :
    p.relativeIndex q ≤ p.relativeIndex u :=
  relativeIndex_le hu (.of_frontier hq)

/-! ## Numbers that follow the slices -/

/-- When the numbers follow the slices, the level of a numbered operation is its own number. -/
theorem sequenceLevel_of_sequence (consistent : p.NumbersFollowSlices) {x : Int}
    (numbered : (p.op u).sequence = some x) : p.sequenceLevel u = x := by
  refine le_antisymm (sequenceLevel_le_iff.mpr fun w hw => ?_)
    (explicitNumber_of_sequence numbered ▸ le_sequenceLevel (.inl rfl))
  rcases hw with rfl | hw
  · exact (explicitNumber_of_sequence numbered).le
  cases hn : (p.op w).sequence with
  | none => simp [Program.explicitNumber, hn]
  | some y =>
    rw [explicitNumber_of_sequence hn]
    exact WithBot.coe_le_coe.mpr (consistent u w x y (mem_slice.mp hw) numbered hn)

theorem sequencePlace_of_sequence (consistent : p.NumbersFollowSlices) {x : Int}
    (numbered : (p.op u).sequence = some x) :
    p.sequencePlace u = toLex ((x : WithBot Int), toLex (0, 0)) := by
  have bound : p.BoundToLevel u := .inl (by rw [explicitNumber_of_sequence numbered]; simp)
  rw [Program.sequencePlace, if_pos bound, sequenceLevel_of_sequence consistent numbered]

theorem relativeIndex_lt_of_sequence (consistent : p.NumbersFollowSlices) {a b : Nat} {x y : Int}
    (ha : a ∈ p.computeOps) (sa : (p.op a).sequence = some x) (sb : (p.op b).sequence = some y)
    (lt : x < y) : p.relativeIndex a < p.relativeIndex b := by
  refine denseRank_lt_denseRank ha ?_
  rw [sequencePlace_of_sequence consistent sa, sequencePlace_of_sequence consistent sb]
  exact place_lt_of_level_lt (WithBot.coe_lt_coe.mpr lt)

/-- Operations with one explicit number share a relative index. -/
theorem relativeIndex_eq_of_sequence (consistent : p.NumbersFollowSlices) {a b : Nat} {x : Int}
    (sa : (p.op a).sequence = some x) (sb : (p.op b).sequence = some x) :
    p.relativeIndex a = p.relativeIndex b := by
  simp only [Program.relativeIndex, denseRank, sequencePlace_of_sequence consistent sa,
    sequencePlace_of_sequence consistent sb]

theorem backwardFrontier_eq_nil (beyond : p.ops.length ≤ u) : backwardFrontier p u = [] := by
  simp [backwardFrontier, frontierSearch, Program.producers, Program.op,
    List.getD_eq_getElem?_getD, List.getElem?_eq_none beyond,
    show (default : SairOp).operands = [] from rfl]

/-- Only an operation of the program has a nonempty slice. -/
theorem lt_of_inSlice (h : InSlice (backwardFrontier p) u w) : u < p.ops.length := by
  refine Nat.lt_of_not_le fun beyond => ?_
  induction h with
  | base mem => simp [backwardFrontier_eq_nil beyond] at mem
  | step _ _ ih => exact ih

theorem numbersFollowSlices_iff : p.NumbersFollowSlices ↔ ∀ u ∈ List.range p.ops.length,
    ∀ q ∈ p.slice u, ∀ x ∈ (p.op u).sequence, ∀ y ∈ (p.op q).sequence, y ≤ x :=
  ⟨fun consistent u _ q hq x hx y hy => consistent u q x y (mem_slice.mp hq) hx hy,
    fun each u q x y h hx hy =>
      each u (List.mem_range.mpr (lt_of_inSlice h)) q (mem_slice.mpr h) x hx y hy⟩

instance (p : Program) : Decidable p.NumbersFollowSlices :=
  decidable_of_iff _ numbersFollowSlices_iff.symm

end

/-! ## `UpdateSequence` -/

section

variable {p : Program} {i j : Nat} {index : Int}

@[simp] theorem length_setSequence : (p.setSequence i index).ops.length = p.ops.length :=
  List.length_modify _ _ _

theorem op_setSequence : (p.setSequence i index).op j =
    if i = j ∧ j < p.ops.length then { p.op j with sequence := some index } else p.op j := by
  simp only [Program.setSequence, Program.op, List.getD_eq_getElem?_getD, List.getElem?_modify]
  by_cases within : j < p.ops.length
  · by_cases same : i = j <;> simp [within, same]
  · simp [within, List.getElem?_eq_none (Nat.le_of_not_lt within)]

/-- Setting a number an operation already has changes nothing. -/
theorem setSequence_eq_self (numbered : (p.op i).sequence = some index) :
    p.setSequence i index = p := by
  obtain ⟨ops⟩ := p
  refine congrArg Program.mk (List.ext_getElem? fun j => ?_)
  rw [List.getElem?_modify]
  cases found : ops[j]? with
  | none => rfl
  | some op =>
    simp only [Option.map_eq_map, Option.map_some', Option.some.injEq, ite_eq_right_iff]
    rintro rfl
    rw [Program.op_of_getElem? found] at numbered
    rw [← numbered]

/-- The loop of `UpdateSequence` over a list of entries `(f i, i)`: every operation of the list
gets its number `f i`, the others are left as they are. -/
theorem op_foldl_setSequence {f : Nat → Nat} (entries : List (Nat × Nat))
    (indexed : ∀ e ∈ entries, e.1 = f e.2) (p : Program) (j : Nat) :
    (entries.foldl (fun q (index, i) => q.setSequence i index) p).op j =
      if j ∈ entries.map Prod.snd ∧ j < p.ops.length then
        { p.op j with sequence := some (f j : Int) } else p.op j := by
  induction entries generalizing p with
  | nil => simp
  | cons e entries ih =>
    obtain ⟨index, i⟩ := e
    have first : index = f i := indexed _ (.head _)
    rw [List.foldl_cons, ih (fun e he => indexed e (.tail _ he)), length_setSequence,
      op_setSequence, first]
    by_cases within : j < p.ops.length
    · by_cases same : i = j
      · subst same
        by_cases later : i ∈ entries.map Prod.snd <;> simp [later, within]
      · simp only [same, false_and, if_false, List.map_cons, List.mem_cons, Ne.symm same, false_or]
    · simp [within]

/-- Writing, entry by entry, the numbers the operations already have changes nothing. -/
theorem foldl_setSequence_eq_self (entries : List (Nat × Nat))
    (numbered : ∀ e ∈ entries, (p.op e.2).sequence = some (e.1 : Int)) :
    entries.foldl (fun q (index, i) => q.setSequence i index) p = p := by
  induction entries with
  | nil => rfl
  | cons e entries ih =>
    obtain ⟨index, i⟩ := e
    simp only [List.foldl_cons]
    rw [setSequence_eq_self (numbered _ (.head _))]
    exact ih fun e he => numbered e (.tail _ he)

/-- `Ops()` lists the compute operations, each once. -/
theorem perm_sequenceOps : (p.sequenceOps.map Prod.snd).Perm p.computeOps := by
  simpa [Program.sequenceOps, Function.comp_def] using List.perm_insertionSort _ p.computeOps

theorem mem_sequenceOps : i ∈ p.sequenceOps.map Prod.snd ↔ i ∈ p.computeOps :=
  perm_sequenceOps.mem_iff

theorem nodup_sequenceOps : (p.sequenceOps.map Prod.snd).Nodup :=
  perm_sequenceOps.nodup_iff.mpr (nodup_computeOps p)

/-- `UpdateSequence` numbers every compute operation by its relative index and writes nothing
else. -/
theorem op_updateSequence (j : Nat) : (updateSequence p).op j =
    if j ∈ p.computeOps then { p.op j with sequence := some (p.relativeIndex j : Int) }
    else p.op j := by
  rw [updateSequence, op_foldl_setSequence (f := p.relativeIndex) _
    (fun e he => by obtain ⟨i, -, rfl⟩ := List.mem_map.mp he; rfl)]
  exact if_congr ⟨fun h => mem_sequenceOps.mp h.1,
    fun h => ⟨mem_sequenceOps.mpr h, (mem_computeOps.mp h).1⟩⟩ rfl rfl

theorem sequence_updateSequence (hj : j ∈ p.computeOps) :
    ((updateSequence p).op j).sequence = some (p.relativeIndex j : Int) := by
  rw [op_updateSequence, if_pos hj]

theorem length_foldl_setSequence (entries : List (Nat × Nat)) (p : Program) :
    (entries.foldl (fun q (index, i) => q.setSequence i index) p).ops.length = p.ops.length := by
  induction entries generalizing p with
  | nil => rfl
  | cons e entries ih => exact (ih _).trans length_setSequence

@[simp] theorem length_updateSequence : (updateSequence p).ops.length = p.ops.length :=
  length_foldl_setSequence _ p

/-- `UpdateSequence` writes only `sequence` attributes. -/
theorem updateSequence_frame (j : Nat) :
    (updateSequence p).op j = { p.op j with sequence := ((updateSequence p).op j).sequence } := by
  rw [op_updateSequence]
  split <;> rfl

end

/-! ## What the analysis reads -/

section

variable {p q : Program}

theorem backwardFrontier_congr (length : q.ops.length = p.ops.length)
    (producers : ∀ i, q.producers i = p.producers i)
    (compute : ∀ i, (q.op i).isCompute = (p.op i).isCompute) :
    backwardFrontier q = backwardFrontier p :=
  funext fun _ => by
    simp only [backwardFrontier, length]
    exact frontierSearch_congr producers compute _ _ _

theorem computeOps_congr (length : q.ops.length = p.ops.length)
    (compute : ∀ i, (q.op i).isCompute = (p.op i).isCompute) : q.computeOps = p.computeOps := by
  simp only [Program.computeOps, length, compute]

theorem slice_congr (length : q.ops.length = p.ops.length)
    (frontier : backwardFrontier q = backwardFrontier p) : q.slice = p.slice := by
  funext u
  simp only [Program.slice, length, frontier]

theorem backwardFrontier_updateSequence : backwardFrontier (updateSequence p) = backwardFrontier p :=
  backwardFrontier_congr length_updateSequence
    (fun i => by rw [Program.producers, Program.producers, updateSequence_frame i])
    fun i => by rw [updateSequence_frame i]

theorem computeOps_updateSequence : (updateSequence p).computeOps = p.computeOps :=
  computeOps_congr length_updateSequence fun i => by rw [updateSequence_frame i]

/-- A program with the compute operations and slices of `p`, numbered by the relative indices of
`p`, has those relative indices: every operation is bound at its own number, which no operation
of its slice exceeds, and ranking the ranks gives them back. -/
theorem relativeIndex_renumbered (computeOps : q.computeOps = p.computeOps)
    (slice : q.slice = p.slice)
    (renumbered : ∀ w ∈ p.computeOps, (q.op w).sequence = some (p.relativeIndex w : Int))
    {u : Nat} (hu : u ∈ p.computeOps) : q.relativeIndex u = p.relativeIndex u := by
  have closure : q.InClosure = p.InClosure := by
    funext u w; simp only [Program.InClosure, slice]
  have level : ∀ w ∈ p.computeOps, q.sequenceLevel w = ((p.relativeIndex w : Int) : WithBot Int) :=
    fun w hw => le_antisymm (sequenceLevel_le_iff.mpr fun v hv => by
        rw [closure] at hv
        rw [explicitNumber_of_sequence (renumbered v (hv.mem_computeOps hw))]
        exact WithBot.coe_le_coe.mpr (Int.ofNat_le.mpr (relativeIndex_le hw hv)))
      (explicitNumber_of_sequence (renumbered w hw) ▸ le_sequenceLevel (.inl rfl))
  have place : ∀ w ∈ p.computeOps, q.sequencePlace w =
      toLex (((p.relativeIndex w : Int) : WithBot Int), toLex (0, 0)) := fun w hw => by
    have bound : q.BoundToLevel w :=
      .inl (by rw [explicitNumber_of_sequence (renumbered w hw)]; simp)
    rw [Program.sequencePlace, if_pos bound, level w hw]
  have mono : StrictMono fun n : Nat =>
      (toLex (((n : Int) : WithBot Int), toLex (0, 0)) : WithBot Int ×ₗ (Nat ×ₗ Nat)) :=
    fun _ _ lt => place_lt_of_level_lt (WithBot.coe_lt_coe.mpr (Int.ofNat_lt.mpr lt))
  rw [Program.relativeIndex, computeOps, denseRank_congr place hu]
  exact (denseRank_comp (mono.strictMonoOn _) hu).trans (denseRank_denseRank hu)

/-- `UpdateSequence` leaves alone a program that already carries, on every compute operation,
the relative index a program with the same compute operations and slices gives it. -/
theorem updateSequence_of_renumbered (computeOps : q.computeOps = p.computeOps)
    (slice : q.slice = p.slice)
    (renumbered : ∀ w ∈ p.computeOps, (q.op w).sequence = some (p.relativeIndex w : Int)) :
    updateSequence q = q :=
  foldl_setSequence_eq_self _ fun e he => by
    obtain ⟨w, hw, rfl⟩ := List.mem_map.mp he
    have hw' := computeOps ▸ (List.perm_insertionSort _ _).mem_iff.mp hw
    rw [relativeIndex_renumbered computeOps slice renumbered hw']
    exact renumbered w hw'

end

/-! ## Comparing with the frontier only -/

/-- A chain of three compute operations: the first is numbered 9, the second reads it and has
no number, the third reads the second and is numbered 5. -/
def chainProgram : Program := ⟨[
  { domain := [], operands := [], results := [true], isCompute := true, loopNest := none,
    sequence := some 9, storage := [none] },
  { domain := [], operands := [⟨⟨0, 0⟩, ⟨0, []⟩, false⟩], results := [true], isCompute := true,
    loopNest := none, sequence := none, storage := [none] },
  { domain := [], operands := [⟨⟨1, 0⟩, ⟨0, []⟩, false⟩], results := [], isCompute := true,
    loopNest := none, sequence := some 5, storage := [] }]⟩

/-- The model keeps the dataflow order on the chain and gives up the order of the numbers: the
third operation reads the first, numbered 9, so all three share one slot. -/
example : (updateSequence chainProgram).ops.map (·.sequence) = [some 0, some 0, some 0] := by
  decide

/-! ## The order of the new numbers -/

/-- A reduction through `fby`: operation 2 reads the result of operation 0 and its own through
the non-compute operation 1, operation 3 reads operation 2, and operation 4, unrelated, shares
the number of operation 2. -/
def fbyProgram : Program := ⟨[
  { domain := [], operands := [], results := [true], isCompute := true, loopNest := none,
    sequence := some 1, storage := [none] },
  { domain := [], operands := [⟨⟨0, 0⟩, ⟨0, []⟩, false⟩, ⟨⟨2, 0⟩, ⟨0, []⟩, false⟩],
    results := [true], isCompute := false, loopNest := none, sequence := none,
    storage := [none] },
  { domain := [], operands := [⟨⟨1, 0⟩, ⟨0, []⟩, false⟩], results := [true], isCompute := true,
    loopNest := none, sequence := some 2, storage := [none] },
  { domain := [], operands := [⟨⟨2, 0⟩, ⟨0, []⟩, false⟩], results := [], isCompute := true,
    loopNest := none, sequence := none, storage := [] },
  { domain := [], operands := [], results := [], isCompute := true, loopNest := none,
    sequence := some 2, storage := [] }]⟩

/-- The reduction and the unrelated operation share a slot, and the operation reading the
reduction comes after both. -/
example : (updateSequence fbyProgram).ops.map (·.sequence) =
    [some 0, none, some 1, some 2, some 1] := by
  decide

/-- `UpdateSequence` is idempotent: after one run every compute operation carries its relative
index, and a second analysis, which sees the same slices, gives every operation the same index
again. -/
theorem updateSequence_idempotent (p : Program) :
    updateSequence (updateSequence p) = updateSequence p :=
  updateSequence_of_renumbered computeOps_updateSequence
    (slice_congr length_updateSequence backwardFrontier_updateSequence)
    fun _ hw => sequence_updateSequence hw

end SairLowering
