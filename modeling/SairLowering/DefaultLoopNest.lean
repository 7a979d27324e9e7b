import SairLowering.DefaultStorage
import Mathlib.Data.Nat.Digits

/-!
# The default loop nest pass

`DefaultLoopNest` (lines 354-369) gives every compute operation without a `loop_nest` attribute
the nest built by `GetDefaultLoopNest` (lines 325-352) with an empty prefix, naming each new
loop by `LoopFusionAnalysis::GetFreshLoopName`. The analysis is the one cached for the program,
built before any operation is changed.

`GetFreshLoopName` is declared in `loop_nest.h` without its body; it is modelled from the spec
(section 4.3): it draws `loop_<n>` from the counter `next_loop_id_`, skipping the names of the
analysis's fusion classes.

Results:
1. `toString_injective`: decimal numerals are distinct, so `freshLoopName` is injective.
2. `findFreshLoopId_spec`: the collision loop stops at the first free counter value; the fuel
   never runs out.
3. `getDefaultLoopNest_outerLoops`: with a prefix of distinct domain dimensions the nest is the
   prefix followed by one new loop per other dimension, in increasing order, and never fails;
   `getDefaultLoopNest_nil`: with the empty prefix loop `i` iterates `d_i`.
4. `defaultLoopNest_fresh`: the pass keeps every existing loop nest, gives one to every compute
   operation that had none, and the names it mints are distinct and new.
5. `defaultLoopNest_idempotent`, `defaultLoopNest_wellFormed`: the pass never fails, a second
   run changes nothing, and the nests the pass makes are well formed.
-/

namespace SairLowering

open MappingExpr (dim)

/-! ## Fresh loop names -/

theorem toDigitsCore_ten (fuel n : Nat) (ds : List Char) (positive : 0 < n) (enough : n < fuel) :
    Nat.toDigitsCore 10 fuel n ds = ((Nat.digits 10 n).map Nat.digitChar).reverse ++ ds := by
  induction fuel generalizing n ds with
  | zero => omega
  | succ fuel ih =>
    rw [Nat.toDigitsCore]
    have split := Nat.digits_def' (by decide : 1 < 10) positive
    split
    · next small =>
      have : n < 10 := by omega
      rw [split, show n / 10 = 0 from small, Nat.digits_zero, Nat.mod_eq_of_lt this]
      simp
    · next large =>
      rw [ih (n / 10) _ (Nat.pos_of_ne_zero large) (by omega), split]
      simp

/-- Reading the decimal digits of `toString n` back gives `n`. -/
theorem ofDigits_toDigits_ten (n : Nat) :
    Nat.ofDigits 10 ((Nat.toDigits 10 n).reverse.map fun c => c.toNat - 48) = n := by
  rcases Nat.eq_zero_or_pos n with rfl | positive
  · rfl
  rw [Nat.toDigits, toDigitsCore_ten _ _ _ positive (Nat.lt_succ_self n), List.append_nil,
    List.reverse_reverse, List.map_map]
  show Nat.ofDigits 10 ((Nat.digits 10 n).map fun d => (Nat.digitChar d).toNat - 48) = n
  have decode : ∀ d < 10, (Nat.digitChar d).toNat - 48 = d := by decide
  rw [List.map_congr_left (g := id) fun d mem => decode d (Nat.digits_lt_base (by decide) mem),
    List.map_id, Nat.ofDigits_digits]

theorem toString_injective : Function.Injective (toString : Nat → String) := by
  intro a b same
  have digits : Nat.toDigits 10 a = Nat.toDigits 10 b := congrArg String.data same
  rw [← ofDigits_toDigits_ten a, digits, ofDigits_toDigits_ten]

/-- The name `GetFreshLoopName` makes from counter value `id`. -/
def freshLoopName (id : Nat) : LoopName := "loop_" ++ toString id

theorem freshLoopName_injective : Function.Injective freshLoopName := by
  intro a b same
  apply toString_injective
  have data := congrArg String.data same
  simp only [freshLoopName, String.data_append] at data
  exact String.ext (List.append_cancel_left data)

/-- Modelled from the spec: the part of `LoopFusionAnalysis` that `GetFreshLoopName` reads, the
names of the fusion classes and the counter `next_loop_id_`. -/
structure LoopFusionAnalysis where
  loopNames : List LoopName
  nextLoopId : Nat
  deriving DecidableEq, Repr

/-- Every loop name of the compute operations' `loop_nest` attributes, in walk order. -/
def Program.loopNames (p : Program) : List LoopName :=
  p.ops.flatMap fun op => if op.isCompute then (op.loopNest.getD []).map (·.name) else []

/-- Modelled from the spec: the analysis "populated with all loops appearing in" the program,
counter at zero. -/
def LoopFusionAnalysis.ofProgram (p : Program) : LoopFusionAnalysis := ⟨p.loopNames, 0⟩

/-- The do-while loop of `GetFreshLoopName`: the first counter value from `id` on whose name is
not a fusion class. The fuel is never exhausted (`findFreshLoopId_spec`). -/
def findFreshLoopId (names : List LoopName) : Nat → Nat → Nat
  | 0, id => id
  | fuel + 1, id => if freshLoopName id ∈ names then findFreshLoopId names fuel (id + 1) else id

/-- Modelled from the spec: `GetFreshLoopName`, the name and the analysis with its counter
past it. -/
def LoopFusionAnalysis.getFreshLoopName (a : LoopFusionAnalysis) : LoopName × LoopFusionAnalysis :=
  let id := findFreshLoopId a.loopNames a.loopNames.length a.nextLoopId
  (freshLoopName id, { a with nextLoopId := id + 1 })

theorem findFreshLoopId_spec_of_not_subset {names : List LoopName} {fuel id : Nat}
    (room : ¬ (List.range' id (fuel + 1)).map freshLoopName ⊆ names) :
    id ≤ findFreshLoopId names fuel id ∧ freshLoopName (findFreshLoopId names fuel id) ∉ names ∧
      ∀ k, id ≤ k → k < findFreshLoopId names fuel id → freshLoopName k ∈ names := by
  induction fuel generalizing id with
  | zero =>
    have free : freshLoopName id ∉ names := fun taken => room (by simpa [List.range'] using taken)
    exact ⟨le_rfl, free, fun k low high => absurd high (by simp [findFreshLoopId]; omega)⟩
  | succ fuel ih =>
    rw [findFreshLoopId]
    split
    · next taken =>
      have rest : ¬ (List.range' (id + 1) (fuel + 1)).map freshLoopName ⊆ names := by
        rw [List.range'_succ, List.map_cons, List.cons_subset] at room
        exact fun sub => room ⟨taken, sub⟩
      obtain ⟨above, free, skipped⟩ := ih rest
      refine ⟨by omega, free, fun k low high => ?_⟩
      rcases Nat.eq_or_lt_of_le low with rfl | later
      · exact taken
      · exact skipped k later high
    · next free => exact ⟨le_rfl, free, fun k low high => absurd high (by omega)⟩

/-- `names.length + 1` distinct candidates cannot all be taken. -/
theorem not_range_subset (names : List LoopName) (id : Nat) :
    ¬ (List.range' id (names.length + 1)).map freshLoopName ⊆ names := by
  intro sub
  have nodup := (List.nodup_range' id (names.length + 1)).map freshLoopName_injective
  have := (List.subperm_of_subset nodup sub).length_le
  simp at this

/-- The collision loop returns the first free counter value at or after `id`. -/
theorem findFreshLoopId_spec (names : List LoopName) (id : Nat) :
    let found := findFreshLoopId names names.length id
    id ≤ found ∧ freshLoopName found ∉ names ∧
      ∀ k, id ≤ k → k < found → freshLoopName k ∈ names :=
  findFreshLoopId_spec_of_not_subset (not_range_subset names id)

example : (LoopFusionAnalysis.getFreshLoopName ⟨["loop_0", "loop_1"], 0⟩).1 = "loop_2" := by
  decide

/-- The names minted from `a`'s counter so far: distinct, below the counter, and none of the
analysis's loop names. -/
structure MintedBelow (a : LoopFusionAnalysis) (minted : List LoopName) : Prop where
  nodup : minted.Nodup
  below : ∀ name ∈ minted, ∃ k < a.nextLoopId, name = freshLoopName k
  fresh : ∀ name ∈ minted, name ∉ a.loopNames

theorem MintedBelow.getFreshLoopName {a : LoopFusionAnalysis} {minted : List LoopName}
    (inv : MintedBelow a minted) :
    MintedBelow a.getFreshLoopName.2 (minted ++ [a.getFreshLoopName.1]) := by
  obtain ⟨above, free, -⟩ := findFreshLoopId_spec a.loopNames a.nextLoopId
  simp only [LoopFusionAnalysis.getFreshLoopName] at above free ⊢
  refine ⟨List.nodup_append.mpr ⟨inv.nodup, List.nodup_singleton _, ?_⟩, ?_, ?_⟩
  · intro name old new
    rw [List.mem_singleton] at new
    subst new
    obtain ⟨k, below, same⟩ := inv.below _ old
    have := freshLoopName_injective same
    omega
  · simp only [List.mem_append, List.mem_singleton]
    rintro name (old | rfl)
    · obtain ⟨k, below, rfl⟩ := inv.below name old
      exact ⟨k, by omega, rfl⟩
    · exact ⟨_, Nat.lt_succ_self _, rfl⟩
  · simp only [List.mem_append, List.mem_singleton]
    rintro name (old | rfl)
    · exact inv.fresh name old
    · exact free

/-! ## `GetDefaultLoopNest` -/

/-- The loop of lines 345-349: one loop per new iteration expression, each named by
`GetFreshLoopName`. -/
def LoopFusionAnalysis.freshLoops (a : LoopFusionAnalysis) :
    List MappingExpr → List LoopAttr × LoopFusionAnalysis
  | [] => ([], a)
  | expr :: exprs =>
    let (name, a) := a.getFreshLoopName
    let (loops, a) := a.freshLoops exprs
    (⟨name, expr⟩ :: loops, a)

/-- `GetDefaultLoopNest` (lines 325-352), the prefix given as `outerLoops`: invert the prefix's
iteration expressions, fill the holes with new loops, and invert back; the expressions past
the prefix are the new loops. A failed `Inverse` is a null attribute. -/
def getDefaultLoopNest (numDimensions : Nat) (outerLoops : List LoopAttr) (a : LoopFusionAnalysis) :
    Except Fault (List LoopAttr × LoopFusionAnalysis) := do
  let iterExprs := outerLoops.map (·.iter)
  let partialInverse ← nonNull (MappingAttr.inverse ⟨numDimensions, iterExprs⟩)
  let fullInverse := partialInverse.makeSurjective
  let newIterExprs ← nonNull fullInverse.inverse
  let (loops, a) := a.freshLoops (newIterExprs.dimensions.drop outerLoops.length)
  pure (outerLoops ++ loops, a)

theorem iter_freshLoops (a : LoopFusionAnalysis) (exprs : List MappingExpr) :
    (a.freshLoops exprs).1.map (·.iter) = exprs := by
  induction exprs generalizing a with
  | nil => rfl
  | cons expr exprs ih => simp [LoopFusionAnalysis.freshLoops, ih]

theorem loopNames_freshLoops (a : LoopFusionAnalysis) (exprs : List MappingExpr) :
    (a.freshLoops exprs).2.loopNames = a.loopNames := by
  induction exprs generalizing a with
  | nil => rfl
  | cons expr exprs ih =>
    simp [LoopFusionAnalysis.freshLoops, ih, LoopFusionAnalysis.getFreshLoopName]

theorem MintedBelow.freshLoops {a : LoopFusionAnalysis} {minted : List LoopName}
    (inv : MintedBelow a minted) (exprs : List MappingExpr) :
    MintedBelow (a.freshLoops exprs).2 (minted ++ (a.freshLoops exprs).1.map (·.name)) := by
  induction exprs generalizing a minted with
  | nil => simpa [LoopFusionAnalysis.freshLoops] using inv
  | cons expr exprs ih =>
    simpa [LoopFusionAnalysis.freshLoops] using ih inv.getFreshLoopName

/-- `GetDefaultLoopNest` with a prefix whose iteration expressions are distinct dimensions `ds`
of the domain: the prefix, then a fresh loop for every other dimension, in increasing order. -/
theorem getDefaultLoopNest_eq {n : Nat} {outerLoops : List LoopAttr} {ds : List Nat}
    (iters : outerLoops.map (·.iter) = ds.map dim) (nodup : ds.Nodup) (bound : ∀ d ∈ ds, d < n)
    (a : LoopFusionAnalysis) :
    let exprs := ((List.range n).filter fun j => j ∉ ds).map dim
    getDefaultLoopNest n outerLoops a =
      .ok (outerLoops ++ (a.freshLoops exprs).1, (a.freshLoops exprs).2) := by
  intro exprs
  -- the prefix's inverse: dimension `d` of the domain to the prefix loop iterating it
  set es := (List.range n).map (inverseAt (ds.map dim))
  have partialInverse : MappingAttr.inverse ⟨n, ds.map dim⟩ = some ⟨ds.length, es⟩ := by
    rw [MappingAttr.inverse, if_pos ⟨by rwa [referencedDims_map_dim], by
      simpa [referencedDims_map_dim] using bound⟩]
    simp [es]
  have below : ∀ j, dim j ∈ es → j < ds.length := by
    intro j mem
    obtain ⟨d, -, hd⟩ := List.mem_map.mp mem
    simpa using (List.getElem?_eq_some_iff.mp (getElem?_of_inverseAt_eq_dim hd)).1
  -- the new loops' iteration expressions
  have fullInverse : MappingAttr.inverse (⟨ds.length, es⟩ : MappingAttr).makeSurjective =
      some ⟨n, (List.range (ds.length + holeCount es)).map (inverseAt (fillHoles es ds.length))⟩ := by
    have inRange : ∀ d ∈ referencedDims (fillHoles es ds.length), d < ds.length + holeCount es := by
      intro d mem
      rcases mem_fillHoles.mp (mem_referencedDims.mp mem) with old | ⟨-, high⟩
      · have := below d old; omega
      · exact high
    rw [MappingAttr.inverse, if_pos ⟨nodup_fillHoles
      (nodup_referencedDims_map_inverseAt (List.nodup_range n)) below, inRange⟩]
    simp [es]
  have newLoops : ((List.range (ds.length + holeCount es)).map
      (inverseAt (fillHoles es ds.length))).drop outerLoops.length = exprs := by
    rw [show outerLoops.length = ds.length by simpa using congrArg List.length iters,
      List.range_add, List.map_append, List.drop_left' (by simp), List.map_map]
    refine (map_inverseAt_fillHoles below).trans (congrArg _ ?_)
    simp only [es, List.length_map, List.length_range]
    refine List.filter_congr fun d mem => ?_
    have read := @isDim_inverseAt (ds.map dim) d
    simp only [List.mem_map, MappingExpr.dim.injEq, exists_eq_right] at read
    simp only [List.getD_eq_getElem?_getD, List.getElem?_map, List.getElem?_range (List.mem_range.mp mem),
      Option.map_some', Option.getD_some, Bool.not_eq_eq_eq_not, Bool.not_not]
    rw [decide_not, Bool.not_not]
    exact Bool.eq_iff_iff.mpr (read.trans decide_eq_true_iff.symm)
  simp only [getDefaultLoopNest, iters, partialInverse, fullInverse, nonNull, bind, Except.bind,
    MappingAttr.dimensions_makeSurjective, newLoops]
  rfl

/-- With an empty prefix the default nest has one loop per domain dimension, loop `i` iterating
`d_i`, and `GetDefaultLoopNest` does not fail. -/
theorem getDefaultLoopNest_nil (n : Nat) (a : LoopFusionAnalysis) :
    getDefaultLoopNest n [] a = .ok (a.freshLoops ((List.range n).map dim)) := by
  simpa using @getDefaultLoopNest_eq n [] [] rfl List.nodup_nil (by simp) a

/-- `GetDefaultLoopNest` with a prefix whose iteration expressions are distinct dimensions of the
domain returns the prefix followed by one new loop for each domain dimension the prefix does not
iterate, in increasing order; the nest's iteration expressions then reference every domain
dimension exactly once. -/
theorem getDefaultLoopNest_outerLoops {n : Nat} {outerLoops : List LoopAttr} {ds : List Nat}
    (iters : outerLoops.map (·.iter) = ds.map dim) (nodup : ds.Nodup) (bound : ∀ d ∈ ds, d < n)
    (a : LoopFusionAnalysis) :
    ∃ loops a', getDefaultLoopNest n outerLoops a = .ok (outerLoops ++ loops, a') ∧
      loops.map (·.iter) = ((List.range n).filter fun j => j ∉ ds).map dim ∧
      (⟨n, (outerLoops ++ loops).map (·.iter)⟩ : MappingAttr).IsPermutation := by
  refine ⟨_, _, getDefaultLoopNest_eq iters nodup bound a, iter_freshLoops a _, ?_⟩
  have free : ((List.range n).filter fun j => j ∉ ds).map dim = freeDims n (ds.map dim) := by
    simp [freeDims]
  rw [List.map_append, iter_freshLoops, iters, free]
  refine isPermutation_append_freeDims (by simp [MappingExpr.isDim]) ?_ ?_ <;>
    rwa [referencedDims_map_dim]

theorem getDefaultLoopNest_outerLoops_single :
    [(⟨"x", dim 2⟩ : LoopAttr)].map (·.iter) = [2].map dim ∧ [2].Nodup ∧ (∀ d ∈ [2], d < 3) ∧
    ∃ loops a', getDefaultLoopNest 3 [⟨"x", dim 2⟩] ⟨[], 0⟩ = .ok ([⟨"x", dim 2⟩] ++ loops, a') ∧
      loops.map (·.iter) = ((List.range 3).filter fun j => j ∉ [2]).map dim ∧
      (⟨3, ([⟨"x", dim 2⟩] ++ loops).map (·.iter)⟩ : MappingAttr).IsPermutation :=
  ⟨rfl, by decide, by decide,
    @getDefaultLoopNest_outerLoops 3 [⟨"x", dim 2⟩] [2] rfl (by decide) (by decide) _⟩

example : getDefaultLoopNest 3 [⟨"x", dim 2⟩] ⟨["loop_0"], 0⟩ =
    .ok ([⟨"x", dim 2⟩, ⟨"loop_1", dim 0⟩, ⟨"loop_2", dim 1⟩], ⟨["loop_0"], 3⟩) := by
  rfl

/-! ## The pass -/

/-- `DefaultLoopNest` on one operation (lines 361-367): a compute operation without a loop nest
gets the default one for its domain. -/
def defaultLoopNestOp (op : SairOp) (a : LoopFusionAnalysis) :
    Except Fault (SairOp × LoopFusionAnalysis) :=
  if op.isCompute && op.loopNest.isNone then do
    let (loopNest, a) ← getDefaultLoopNest op.domain.length [] a
    pure ({ op with loopNest := some loopNest }, a)
  else pure (op, a)

/-- The walk of `DefaultLoopNest` over the operations, threading the analysis. -/
def defaultLoopNestOps : List SairOp → LoopFusionAnalysis →
    Except Fault (List SairOp × LoopFusionAnalysis)
  | [], a => pure ([], a)
  | op :: ops, a => do
    let (op, a) ← defaultLoopNestOp op a
    let (ops, a) ← defaultLoopNestOps ops a
    pure (op :: ops, a)

/-- `DefaultLoopNest::runOnFunction` on one program, with the program's analysis. -/
def defaultLoopNest (p : Program) : Except Fault Program := do
  let (ops, _) ← defaultLoopNestOps p.ops (LoopFusionAnalysis.ofProgram p)
  pure ⟨ops⟩

/-- The loop names the pass minted: those of the nests it gave the operations that had none. -/
def mintedLoopNames (ops ops' : List SairOp) : List LoopName :=
  (ops.zip ops').flatMap fun (op, op') =>
    if op.isCompute && op.loopNest.isNone then (op'.loopNest.getD []).map (·.name) else []

/-- What the pass does to one operation: a compute operation without a loop nest gets one whose
loop `i` iterates domain dimension `i`, every other operation is kept. -/
def LoopNestDefaulted (op op' : SairOp) : Prop :=
  if op.isCompute && op.loopNest.isNone then
    ∃ loops, loops.map (·.iter) = (List.range op.domain.length).map dim ∧
      op' = { op with loopNest := some loops }
  else op' = op

theorem mintedLoopNames_single (op op' : SairOp) :
    mintedLoopNames [op] [op'] =
      if op.isCompute && op.loopNest.isNone then (op'.loopNest.getD []).map (·.name) else [] :=
  List.append_nil _

theorem defaultLoopNestOp_spec (op : SairOp) (a : LoopFusionAnalysis) {minted : List LoopName}
    (inv : MintedBelow a minted) :
    ∃ op' a', defaultLoopNestOp op a = .ok (op', a') ∧ a'.loopNames = a.loopNames ∧
      LoopNestDefaulted op op' ∧ MintedBelow a' (minted ++ mintedLoopNames [op] [op']) := by
  unfold defaultLoopNestOp LoopNestDefaulted
  split
  · next missing =>
    let exprs := (List.range op.domain.length).map dim
    refine ⟨{ op with loopNest := some (a.freshLoops exprs).1 }, (a.freshLoops exprs).2,
      by simp [getDefaultLoopNest_nil, bind, Except.bind, pure, Except.pure],
      loopNames_freshLoops a exprs, ⟨_, iter_freshLoops a exprs, rfl⟩, ?_⟩
    rw [mintedLoopNames_single, if_pos missing]
    exact inv.freshLoops exprs
  · next present =>
    refine ⟨op, a, rfl, rfl, rfl, ?_⟩
    rwa [mintedLoopNames_single, if_neg present, List.append_nil]

theorem mintedLoopNames_cons (op op' : SairOp) (ops ops' : List SairOp) :
    mintedLoopNames (op :: ops) (op' :: ops') =
      mintedLoopNames [op] [op'] ++ mintedLoopNames ops ops' := by
  simp [mintedLoopNames]

theorem defaultLoopNestOps_spec (ops : List SairOp) (a : LoopFusionAnalysis)
    {minted : List LoopName} (inv : MintedBelow a minted) :
    ∃ ops' a', defaultLoopNestOps ops a = .ok (ops', a') ∧ a'.loopNames = a.loopNames ∧
      List.Forall₂ LoopNestDefaulted ops ops' ∧
      MintedBelow a' (minted ++ mintedLoopNames ops ops') := by
  induction ops generalizing a minted with
  | nil => exact ⟨[], a, rfl, rfl, .nil, by simpa [mintedLoopNames] using inv⟩
  | cons op ops ih =>
    obtain ⟨op', a₁, stepped, names₁, defaulted, inv₁⟩ := defaultLoopNestOp_spec op a inv
    obtain ⟨ops', a₂, walked, names₂, rest, inv₂⟩ := ih a₁ inv₁
    refine ⟨op' :: ops', a₂, ?_, names₂.trans names₁, .cons defaulted rest, ?_⟩
    · rw [defaultLoopNestOps]
      simp only [bind, Except.bind, stepped, walked]
      rfl
    · rwa [mintedLoopNames_cons, ← List.append_assoc]

/-- A property of every operation the pass returns follows from one of each operation it
handled. -/
theorem LoopNestDefaulted.forall_mem {P : SairOp → Prop} {ops ops' : List SairOp}
    (defaulted : List.Forall₂ LoopNestDefaulted ops ops')
    (step : ∀ op op', op ∈ ops → LoopNestDefaulted op op' → P op') : ∀ op' ∈ ops', P op' := by
  induction defaulted with
  | nil => simp
  | cons head _ ih =>
    intro op' mem
    rcases List.mem_cons.mp mem with rfl | later
    · exact step _ _ (.head _) head
    · exact ih (fun op op' mem => step op op' (.tail _ mem)) op' later

/-- An operation the pass handled has a loop nest or is not a compute operation. -/
theorem LoopNestDefaulted.settled {op op' : SairOp} (h : LoopNestDefaulted op op') :
    (op'.isCompute && op'.loopNest.isNone) = false := by
  unfold LoopNestDefaulted at h
  split at h
  · obtain ⟨loops, -, rfl⟩ := h
    simp
  · next present =>
    subst h
    simpa [Option.ne_none_iff_isSome] using present

/-- The default loop nest is well formed: its iteration expressions are the domain dimensions,
each once. -/
theorem LoopNestDefaulted.wellFormed {op op' : SairOp} (h : LoopNestDefaulted op op')
    (wellFormed : LoopNestWellFormed op) : LoopNestWellFormed op' := by
  unfold LoopNestDefaulted at h
  split at h
  · obtain ⟨loops, iters, rfl⟩ := h
    rintro _ ⟨⟩
    rw [iters, referencedDims_map_dim]
    exact ⟨by simp [MappingExpr.isDim], List.nodup_range _, fun d mem => List.mem_range.mp mem⟩
  · exact h ▸ wellFormed

theorem defaultLoopNestOps_settled {ops : List SairOp} (a : LoopFusionAnalysis)
    (settled : ∀ op ∈ ops, (op.isCompute && op.loopNest.isNone) = false) :
    defaultLoopNestOps ops a = .ok (ops, a) := by
  induction ops with
  | nil => rfl
  | cons op ops ih =>
    have keep : defaultLoopNestOp op a = .ok (op, a) := by
      rw [defaultLoopNestOp, if_neg (by simp [settled op (.head _)])]
      rfl
    rw [defaultLoopNestOps]
    simp only [bind, Except.bind, keep, ih fun o mem => settled o (.tail _ mem)]
    rfl

/-- The pass rewrites at most the `loop_nest` attribute of an operation. -/
theorem LoopNestDefaulted.frame {op op' : SairOp} (h : LoopNestDefaulted op op') :
    op' = { op with loopNest := op'.loopNest } := by
  unfold LoopNestDefaulted at h
  split at h
  · obtain ⟨loops, -, rfl⟩ := h
    rfl
  · subst h
    rfl

/-- `DefaultLoopNest` succeeds and does to each operation what `LoopNestDefaulted` says. -/
theorem defaultLoopNest_spec (p : Program) :
    ∃ p', defaultLoopNest p = .ok p' ∧ List.Forall₂ LoopNestDefaulted p.ops p'.ops := by
  have start : MintedBelow (LoopFusionAnalysis.ofProgram p) [] := ⟨.nil, by simp, by simp⟩
  obtain ⟨ops', a', walked, -, defaulted, -⟩ := defaultLoopNestOps_spec p.ops _ start
  exact ⟨⟨ops'⟩, by simp only [defaultLoopNest, walked, bind, Except.bind]; rfl, defaulted⟩

/-- `DefaultLoopNest` succeeds; it keeps every operation that has a loop nest, gives one to every
compute operation that had none, and the loop names it mints are pairwise distinct and none of
the names the program had. -/
theorem defaultLoopNest_fresh (p : Program) :
    ∃ p', defaultLoopNest p = .ok p' ∧ List.Forall₂ LoopNestDefaulted p.ops p'.ops ∧
      (mintedLoopNames p.ops p'.ops).Nodup ∧
      ∀ name ∈ mintedLoopNames p.ops p'.ops, name ∉ p.loopNames := by
  have start : MintedBelow (LoopFusionAnalysis.ofProgram p) [] := ⟨.nil, by simp, by simp⟩
  obtain ⟨ops', a', walked, names, defaulted, inv⟩ := defaultLoopNestOps_spec p.ops _ start
  refine ⟨⟨ops'⟩, by simp [defaultLoopNest, walked, bind, Except.bind, pure, Except.pure],
    defaulted, by simpa using inv.nodup, fun name mem => ?_⟩
  have := inv.fresh name (by simpa using mem)
  rwa [names] at this

/-- A program with a user loop named like a minted one: a range operation, a compute operation
over a 2-D domain without a loop nest, and a compute operation in loop `loop_0`. -/
def userLoopProgram : Program := ⟨[
  { domain := [], operands := [], results := [true], isCompute := false, loopNest := none,
    sequence := none, storage := [none] },
  { domain := [⟨⟨0, 0⟩, ⟨0, []⟩⟩, ⟨⟨0, 0⟩, ⟨0, []⟩⟩], operands := [], results := [], isCompute := true,
    loopNest := none, sequence := none, storage := [] },
  { domain := [⟨⟨0, 0⟩, ⟨0, []⟩⟩], operands := [], results := [], isCompute := true,
    loopNest := some [⟨"loop_0", dim 0⟩], sequence := none, storage := [] }]⟩

/-- The minted names skip the user's `loop_0`. -/
example : ((defaultLoopNest userLoopProgram).toOption.map fun p => (p.op 1).loopNest) =
    some (some [⟨"loop_1", dim 0⟩, ⟨"loop_2", dim 1⟩]) := by
  decide

/-- `DefaultLoopNest` is idempotent and never fails: its first run succeeds, and a second run
finds a loop nest on every compute operation and returns the program it is given. -/
theorem defaultLoopNest_idempotent (p : Program) :
    ∃ p', defaultLoopNest p = .ok p' ∧ defaultLoopNest p' = .ok p' := by
  obtain ⟨⟨ops'⟩, first, defaulted⟩ := defaultLoopNest_spec p
  refine ⟨⟨ops'⟩, first, ?_⟩
  simp only [defaultLoopNest, defaultLoopNestOps_settled _
    (LoopNestDefaulted.forall_mem defaulted fun _ _ _ h => h.settled), bind, Except.bind]
  rfl

/-- After `DefaultLoopNest` every loop nest is well formed when the user's were, so the storage
pass's precondition on loop nests holds. -/
theorem defaultLoopNest_wellFormed {p : Program} (nests : ∀ op ∈ p.ops, LoopNestWellFormed op) :
    ∃ p', defaultLoopNest p = .ok p' ∧ ∀ op ∈ p'.ops, LoopNestWellFormed op := by
  obtain ⟨p', first, defaulted⟩ := defaultLoopNest_spec p
  exact ⟨p', first, LoopNestDefaulted.forall_mem defaulted fun op _ mem h => h.wellFormed (nests op mem)⟩

theorem defaultLoopNest_wellFormed_userLoopProgram :
    (∀ op ∈ userLoopProgram.ops, LoopNestWellFormed op) ∧
    ∃ p', defaultLoopNest userLoopProgram = .ok p' ∧ ∀ op ∈ p'.ops, LoopNestWellFormed op :=
  ⟨by decide, defaultLoopNest_wellFormed (by decide)⟩

end SairLowering
