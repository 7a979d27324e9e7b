import SairLowering.StorageSteps

/-!
# Layout extension in closed form

Lines 163-183 of `ExtendLayout` build the extended layout of a value through `MakeSurjective`,
a permutation that moves the new buffer dimensions in front, two inverses and a unification.
When the value's iteration space is a permutation of its domain and the layout has the buffer's
rank, the whole chain has a closed form: in front of the old layout come, in order, the
iteration dimensions of the communication dimensions the old layout does not read.

Results:
1. `extendedLayout_eq`: the closed form.
2. `Determines`: a layout read through the value's iteration space is invertible and reads a
   given set of dimensions. `covers_iff`: the test of line 151 is `Determines` for the
   communication dimensions.
3. `Determines.addPrefix_inverseAt`, `determines_addPrefix_unknown`,
   `determines_makeFullySpecified`: what the three ways a stored layout changes keep of it.
-/

namespace SairLowering

open MappingExpr (dim unknown isDim_iff)

/-! ## The permutation of lines 165-172 -/

/-- `MakeSurjective` followed by the permutation of lines 165-172, on the expressions of the
layout-to-volume mapping: old layout dimension `j` becomes `j + numNewDims`, and the holes get
the new dimensions `next, next + 1, ...` in order. -/
def shiftFill : List MappingExpr → Nat → Nat → List MappingExpr
  | [], _, _ => []
  | dim j :: es, next, numNewDims => dim (j + numNewDims) :: shiftFill es next numNewDims
  | _ :: es, next, numNewDims => dim next :: shiftFill es (next + 1) numNewDims

@[simp] theorem length_shiftFill (es : List MappingExpr) (next numNewDims : Nat) :
    (shiftFill es next numNewDims).length = es.length := by
  induction es generalizing next with
  | nil => rfl
  | cons e es ih => cases e <;> simp [shiftFill, ih]

/-- The expressions of `gs` at the positions where `es` has a hole. -/
def holeEntries : List MappingExpr → List MappingExpr → List MappingExpr
  | e :: es, g :: gs => if e.isDim then holeEntries es gs else g :: holeEntries es gs
  | _, _ => []

theorem substituteDims_shiftRight_cons (e g : MappingExpr) (gs : List MappingExpr) :
    (e.shiftRight 1).substituteDims (g :: gs) = e.substituteDims gs := by
  cases e <;> simp [MappingExpr.shiftRight, MappingExpr.substituteDims]

/-- The expressions of the permutation of lines 165-172: the old dimensions moved behind the
`numNewDims` new ones. -/
def newDimsFirst (rank numNewDims : Nat) : List MappingExpr :=
  (List.range rank).map (fun j => dim (j + numNewDims)) ++ (List.range numNewDims).map dim

theorem getD_newDimsFirst_old {rank numNewDims j : Nat} (hj : j < rank) :
    (newDimsFirst rank numNewDims).getD j .none = dim (j + numNewDims) := by
  rw [newDimsFirst, List.getD_eq_getElem?_getD, List.getElem?_append_left (by simpa using hj)]
  simp [hj]

theorem getD_newDimsFirst_new {rank numNewDims t : Nat} (ht : t < numNewDims) :
    (newDimsFirst rank numNewDims).getD (rank + t) .none = dim t := by
  rw [newDimsFirst, List.getD_eq_getElem?_getD, List.getElem?_append_right (by simp)]
  simp [ht]

/-- The permutation of lines 165-172 turns the filled expressions into `shiftFill`. -/
theorem map_substituteDims_fillHoles {es : List MappingExpr} {rank numNewDims next : Nat}
    (below : ∀ j, dim j ∈ es → j < rank) (room : next + holeCount es ≤ numNewDims) :
    (fillHoles es (rank + next)).map (·.substituteDims (newDimsFirst rank numNewDims)) =
      shiftFill es next numNewDims := by
  induction es generalizing next with
  | nil => rfl
  | cons e es ih =>
    have tail : ∀ j, dim j ∈ es → j < rank := fun j h => below j (by simp [h])
    cases e with
    | dim j =>
      simp only [holeCount_cons, MappingExpr.isDim_dim, if_true, Nat.add_zero] at room
      simp only [fillHoles, shiftFill, List.map_cons, MappingExpr.substituteDims_dim,
        getD_newDimsFirst_old (below j (by simp)), ih tail room]
    | none | unknown =>
      simp only [holeCount_cons, MappingExpr.isDim_none, MappingExpr.isDim_unknown,
        Bool.false_eq_true, if_false] at room
      simp only [fillHoles, shiftFill, List.map_cons, MappingExpr.substituteDims_dim,
        getD_newDimsFirst_new (show next < numNewDims by omega),
        show rank + next + 1 = rank + (next + 1) by omega, ih tail (show next + 1 + _ ≤ _ by omega)]

theorem mem_shiftFill {es : List MappingExpr} {next numNewDims x : Nat} :
    dim x ∈ shiftFill es next numNewDims ↔
      (∃ j, dim j ∈ es ∧ x = j + numNewDims) ∨ (next ≤ x ∧ x < next + holeCount es) := by
  induction es generalizing next with
  | nil => simp [shiftFill]
  | cons e es ih =>
    cases e with
    | dim j =>
      simp only [shiftFill, List.mem_cons, MappingExpr.dim.injEq, ih, holeCount_cons,
        MappingExpr.isDim_dim, if_true, Nat.add_zero]
      constructor
      · rintro (rfl | ⟨j', old, rfl⟩ | holes)
        · exact .inl ⟨j, .inl rfl, rfl⟩
        · exact .inl ⟨j', .inr old, rfl⟩
        · exact .inr holes
      · rintro (⟨j', rfl | old, rfl⟩ | holes)
        · exact .inl rfl
        · exact .inr (.inl ⟨j', old, rfl⟩)
        · exact .inr (.inr holes)
    | none | unknown =>
      simp only [shiftFill, List.mem_cons, MappingExpr.dim.injEq, ih, holeCount_cons,
        MappingExpr.isDim_none, MappingExpr.isDim_unknown, Bool.false_eq_true, if_false]
      simp only [List.mem_cons, reduceCtorEq, false_or]
      constructor
      · rintro (rfl | old | ⟨low, high⟩)
        · exact .inr ⟨le_rfl, by omega⟩
        · exact .inl old
        · exact .inr ⟨by omega, by omega⟩
      · rintro (old | ⟨low, high⟩)
        · exact .inr (.inl old)
        · by_cases first : x = next
          · exact .inl first
          · exact .inr (.inr ⟨by omega, by omega⟩)

theorem nodup_shiftFill {es : List MappingExpr} {next numNewDims : Nat}
    (nodup : (referencedDims es).Nodup) (room : next + holeCount es ≤ numNewDims) :
    (referencedDims (shiftFill es next numNewDims)).Nodup := by
  induction es generalizing next with
  | nil => simp [shiftFill]
  | cons e es ih =>
    cases e with
    | dim j =>
      simp only [referencedDims_cons_dim, List.nodup_cons, mem_referencedDims] at nodup
      simp only [holeCount_cons, MappingExpr.isDim_dim, if_true, Nat.add_zero] at room
      simp only [shiftFill, referencedDims_cons_dim, List.nodup_cons, mem_referencedDims,
        mem_shiftFill, ih nodup.2 room, and_true, not_or, not_and, not_exists]
      exact ⟨fun j' mem same => nodup.1 (by rwa [Nat.add_right_cancel same]), fun _ => by omega⟩
    | none | unknown =>
      simp only [holeCount_cons, MappingExpr.isDim_none, MappingExpr.isDim_unknown,
        Bool.false_eq_true, if_false] at room
      simp only [referencedDims_cons_none, referencedDims_cons_unknown] at nodup
      simp only [shiftFill, referencedDims_cons_dim, List.nodup_cons, mem_referencedDims,
        mem_shiftFill, ih nodup (show next + 1 + _ ≤ _ by omega), and_true, not_or, not_and,
        not_exists]
      exact ⟨fun j _ same => by omega, by omega⟩

/-- Reading `gs` through the inverse of `shiftFill` at the new dimensions gives the entries of
`gs` at the holes, in order. -/
theorem map_inverseAt_shiftFill_new {es gs : List MappingExpr} {next numNewDims : Nat}
    (same : es.length = gs.length) (room : next + holeCount es ≤ numNewDims) :
    (List.range (holeCount es)).map (fun u =>
      (inverseAt (shiftFill es next numNewDims) (next + u)).substituteDims gs) = holeEntries es gs := by
  induction es generalizing gs next with
  | nil => rfl
  | cons e es ih =>
    cases gs with
    | nil => simp at same
    | cons g gs =>
      simp only [List.length_cons, Nat.add_right_cancel_iff] at same
      cases e with
      | dim j =>
        simp only [holeCount_cons, MappingExpr.isDim_dim, if_true, Nat.add_zero] at room ⊢
        rw [holeEntries, if_pos (MappingExpr.isDim_dim j), ← ih same room]
        refine List.map_congr_left fun u mem => ?_
        have : next + u < numNewDims := by simp at mem; omega
        rw [shiftFill, inverseAt_cons, if_neg (by simp; omega), substituteDims_shiftRight_cons]
      | none | unknown =>
        simp only [holeCount_cons, MappingExpr.isDim_none, MappingExpr.isDim_unknown,
          Bool.false_eq_true, if_false] at room ⊢
        rw [holeEntries, if_neg (by simp), ← ih same (show next + 1 + _ ≤ _ by omega),
          List.range_succ_eq_map, List.map_cons, List.map_map]
        congr 1
        · simp [shiftFill, inverseAt_cons]
        · refine List.map_congr_left fun u _ => ?_
          simp only [Function.comp, shiftFill, inverseAt_cons, show next + (u + 1) = next + 1 + u by omega]
          rw [if_neg (by simp; omega), substituteDims_shiftRight_cons]

/-- Reading `gs` through the inverse of `shiftFill` at old dimension `j` gives `none`, or the
entry of `gs` at a position where `es` has `j`. -/
theorem inverseAt_shiftFill_old {es gs : List MappingExpr} {next numNewDims : Nat}
    (same : es.length = gs.length) (room : next + holeCount es ≤ numNewDims) (j : Nat) :
    (inverseAt (shiftFill es next numNewDims) (j + numNewDims)).substituteDims gs = .none ∨
      ∃ q : Nat, es[q]? = some (dim j) ∧ gs[q]? =
        some ((inverseAt (shiftFill es next numNewDims) (j + numNewDims)).substituteDims gs) := by
  induction es generalizing gs next with
  | nil => simp [shiftFill, MappingExpr.substituteDims]
  | cons e es ih =>
    cases gs with
    | nil => simp at same
    | cons g gs =>
      simp only [List.length_cons, Nat.add_right_cancel_iff] at same
      cases e with
      | dim j₀ =>
        simp only [holeCount_cons, MappingExpr.isDim_dim, if_true, Nat.add_zero] at room
        by_cases found : j₀ = j
        · subst found
          exact .inr ⟨0, by simp [shiftFill, inverseAt_cons]⟩
        · rw [shiftFill, inverseAt_cons, if_neg (by simpa using found), substituteDims_shiftRight_cons]
          rcases ih same room with absent | ⟨q, hq, hg⟩
          · exact .inl absent
          · exact .inr ⟨q + 1, by simpa using hq, by simpa using hg⟩
      | none | unknown =>
        simp only [holeCount_cons, MappingExpr.isDim_none, MappingExpr.isDim_unknown,
          Bool.false_eq_true, if_false] at room
        simp only [shiftFill]
        rw [inverseAt_cons, if_neg (by simp; omega), substituteDims_shiftRight_cons]
        rcases ih same (show next + 1 + _ ≤ _ by omega) with absent | ⟨q, hq, hg⟩
        · exact .inl absent
        · exact .inr ⟨q + 1, by simpa using hq, by simpa using hg⟩

theorem substituteDims_map_range {φ : Nat → MappingExpr} {n d : Nat} (hd : d < n) :
    (dim d).substituteDims ((List.range n).map φ) = φ d := by
  simp [List.getD_eq_getElem?_getD, hd]

theorem holeCount_map_inverseAt (cv : List Nat) (es : List MappingExpr) :
    holeCount (cv.map (inverseAt es)) = (cv.filter fun d => dim d ∉ es).length := by
  rw [holeCount, List.countP_map, List.countP_eq_length_filter]
  congr 1
  refine List.filter_congr fun d _ => ?_
  have present := @isDim_inverseAt es d
  cases h : (inverseAt es d).isDim <;> simp_all

theorem holeEntries_map {φ ψ : Nat → MappingExpr} (cv : List Nat) :
    holeEntries (cv.map φ) (cv.map ψ) = (cv.filter fun d => !(φ d).isDim).map ψ := by
  induction cv with
  | nil => rfl
  | cons d cv ih => by_cases h : (φ d).isDim <;> simp [holeEntries, h, ih]


/-! ## Closed form -/

/-- Reading a mapping of the form `d ↦ φ d` at dimensions `cv` of its use domain. -/
theorem compose_map_range {s u : Nat} {φ : Nat → MappingExpr} {volume : MappingAttr}
    {cv : List Nat} (hv : volume.dimensions = cv.map dim) (bound : ∀ d ∈ cv, d < u) :
    (⟨s, (List.range u).map φ⟩ : MappingAttr).compose volume = ⟨s, cv.map φ⟩ := by
  simp only [MappingAttr.compose, hv, List.map_map]
  exact congrArg _ (List.map_congr_left fun d mem => substituteDims_map_range (bound d mem))

/-- `MakeSurjective` and the permutation of lines 165-172 give `shiftFill`. -/
theorem permute_makeSurjective {es : List MappingExpr} {rank k : Nat}
    (below : ∀ j, dim j ∈ es → j < rank) (holes : holeCount es = k) :
    (((MappingAttr.identity rank).shiftRight k).addSuffix (MappingAttr.identity k).dimensions).compose
      (⟨rank, es⟩ : MappingAttr).makeSurjective = ⟨rank + k, shiftFill es 0 k⟩ := by
  have filled := @map_substituteDims_fillHoles es rank k 0 below (by simp [holes])
  simp only [Nat.add_zero] at filled
  simp only [MappingAttr.compose, MappingAttr.dimensions_makeSurjective, ← filled]
  simp only [MappingAttr.identity, MappingAttr.shiftRight, MappingAttr.addSuffix, newDimsFirst,
    List.map_map, MappingAttr.size_def, MappingAttr.mk.injEq, true_and]
  rfl

theorem inverse_shiftFill {es : List MappingExpr} {rank k : Nat}
    (nodup : (referencedDims es).Nodup) (below : ∀ j, dim j ∈ es → j < rank)
    (holes : holeCount es = k) :
    (⟨rank + k, shiftFill es 0 k⟩ : MappingAttr).inverse =
      some ⟨es.length, (List.range (rank + k)).map (inverseAt (shiftFill es 0 k))⟩ := by
  rw [MappingAttr.inverse, if_pos]
  · simp
  refine ⟨nodup_shiftFill nodup (by simp [holes]), fun x mem => ?_⟩
  rcases mem_shiftFill.mp (mem_referencedDims.mp mem) with ⟨j, hj, rfl⟩ | ⟨-, high⟩
  · have := below j hj
    simp only; omega
  · simp only [holes, Nat.zero_add] at high
    simp only; omega

/-- Lines 163-183 in closed form. When the value's iteration space `defMapping` is a permutation
and the buffer's rank is the size of the layout `layout`, the new layout puts in front of
`layout`, in order, the iteration dimension of every communication dimension `layout` does not
read; their number is the number of new buffer dimensions. -/
theorem extendedLayout_eq {defMapping layout volume layoutToOperand : MappingAttr} {cv : List Nat}
    (perm : defMapping.IsPermutation) (use : layout.useDomainSize = defMapping.useDomainSize)
    (invertible : (defMapping.compose layout).inverse = some layoutToOperand)
    (hv : volume.dimensions = cv.map dim) (nodup : cv.Nodup)
    (bound : ∀ d ∈ cv, d < defMapping.useDomainSize) :
    extendedLayout defMapping layout volume layout.size (layoutToOperand.compose volume) =
      some ((cv.filter fun d => dim d ∉ (defMapping.compose layout).dimensions).length,
        layout.addPrefix ((cv.filter fun d => dim d ∉ (defMapping.compose layout).dimensions).map
          (inverseAt defMapping.dimensions))) := by
  obtain ⟨-, -, rfl⟩ := MappingAttr.inverse_eq_some invertible
  set composed := defMapping.compose layout with hcomposed
  set holes := cv.filter fun d => dim d ∉ composed.dimensions
  set k := holes.length
  set E₀ := cv.map (inverseAt composed.dimensions)
  set G := cv.map (inverseAt defMapping.dimensions)
  have holeCount_eq : holeCount E₀ = k := holeCount_map_inverseAt cv composed.dimensions
  have below : ∀ j, dim j ∈ E₀ → j < layout.size := by
    intro j mem
    obtain ⟨d, -, hd⟩ := List.mem_map.mp mem
    simpa [hcomposed] using (List.getElem?_eq_some_iff.mp (getElem?_of_inverseAt_eq_dim hd)).1
  have toVolume : (⟨composed.size, (List.range composed.useDomainSize).map
      (inverseAt composed.dimensions)⟩ : MappingAttr).compose volume = ⟨layout.size, E₀⟩ := by
    rw [compose_map_range hv (by simpa [hcomposed] using bound)]
    exact congrArg₂ _ (by simp [hcomposed]) rfl
  rw [toVolume]
  simp only [extendedLayout, MappingAttr.useDomainSize_makeSurjective, holeCount_eq,
    Nat.add_sub_cancel_left]
  rw [permute_makeSurjective below holeCount_eq,
    inverse_shiftFill (nodup_referencedDims_map_inverseAt nodup) below holeCount_eq,
    perm.inverse_eq]
  simp only [Option.bind_eq_bind, Option.some_bind, compose_map_range hv bound, List.length_map]
  -- the new dimensions: the iteration dimensions of the unread communication dimensions
  have newPart : (List.range k).map (fun x => (inverseAt (shiftFill E₀ 0 k) x).substituteDims G) =
      holes.map (inverseAt defMapping.dimensions) := by
    have scattered := @map_inverseAt_shiftFill_new E₀ G 0 k (by simp [E₀, G]) (by simp [holeCount_eq])
    simp only [holeCount_eq, Nat.zero_add, E₀, G, holeEntries_map] at scattered
    rw [scattered]
    congr 1
    refine List.filter_congr fun d _ => ?_
    have present := @isDim_inverseAt composed.dimensions d
    cases h : (inverseAt composed.dimensions d).isDim <;> simp_all
  -- the old dimensions: either unread, or read through the entry the old layout already has
  have oldPart : unifyAll ((List.range layout.size).map fun j =>
      (inverseAt (shiftFill E₀ 0 k) (k + j)).substituteDims G) layout.dimensions =
      some layout.dimensions := by
    refine unifyAll_eq_right (List.forall₂_iff_get.mpr ⟨by simp, fun j _ inLayout => ?_⟩)
    simp only [List.get_eq_getElem, List.getElem_map, List.getElem_range, Nat.add_comm k j]
    rcases @inverseAt_shiftFill_old E₀ G 0 k (by simp [E₀, G]) (by simp [holeCount_eq]) j with
      absent | ⟨q, hq, hg⟩
    · rw [absent]; rfl
    obtain ⟨d, hd, found⟩ : ∃ d, cv[q]? = some d ∧ inverseAt composed.dimensions d = dim j := by
      simpa [E₀] using hq
    have entry := getElem?_of_inverseAt_eq_dim found
    simp only [hcomposed, MappingAttr.dimensions_compose, List.getElem?_map,
      List.getElem?_eq_getElem inLayout, Option.map_some', Option.some.injEq] at entry
    generalize layout.dimensions[j] = e at entry ⊢
    cases e with
    | dim i =>
      have hi : defMapping.dimensions[i]? = some (dim d) := by
        simp only [MappingExpr.substituteDims_dim, List.getD_eq_getElem?_getD] at entry
        cases h : defMapping.dimensions[i]? <;> simp_all
      have read : G[q]? = some (dim i) := by
        simp [G, hd, (inverseAt_eq_dim_iff perm.nodup).mpr hi]
      rw [read, Option.some.injEq] at hg
      rw [← hg]
      exact MappingExpr.unify_self _
    | none | unknown => simp [MappingExpr.substituteDims] at entry
  have unified : ((⟨defMapping.size, G⟩ : MappingAttr).compose ⟨cv.length,
      (List.range (layout.size + k)).map (inverseAt (shiftFill E₀ 0 k))⟩).unify
      (layout.addPrefix (List.replicate k .none)) =
      some (layout.addPrefix (holes.map (inverseAt defMapping.dimensions))) := by
    rw [MappingAttr.unify_eq_some]
    have sizes := perm.size_eq
    simp only [MappingAttr.size_def] at sizes
    refine ⟨by simp [use, sizes], by simp [use, sizes], ?_⟩
    have firstPart : unifyAll (holes.map (inverseAt defMapping.dimensions)) (List.replicate k .none) =
        some (holes.map (inverseAt defMapping.dimensions)) := by
      have known := @unifyAll_replicate_none (holes.map (inverseAt defMapping.dimensions))
        (by simp [inverseAt_ne_unknown])
      rwa [List.length_map] at known
    simp only [MappingAttr.dimensions_compose, MappingAttr.dimensions_addPrefix, List.map_map]
    rw [show layout.size + k = k + layout.size by omega, List.range_add, List.map_append,
      unifyAll_append (by simp), List.map_map]
    simp only [Function.comp_def, MappingAttr.size_def] at oldPart ⊢
    rw [newPart, firstPart]
    simp [oldPart]
  rw [unified]
  rfl

/-! ## What a layout determines -/

/-- The iteration space of a value read through one of its layouts, `composed`, determines the
value dimensions `dims`: it can be inverted (no dimension is read twice or out of range) and
it reads each of them. -/
structure Determines (composed : MappingAttr) (dims : List Nat) : Prop where
  nodup : (referencedDims composed.dimensions).Nodup
  bound : ∀ d ∈ referencedDims composed.dimensions, d < composed.useDomainSize
  mem : dims ⊆ referencedDims composed.dimensions

namespace Determines

variable {m m' : MappingAttr} {dims dims' : List Nat}

theorem of_inverse {inv : MappingAttr} (h : m.inverse = some inv) : Determines m [] :=
  ⟨(MappingAttr.inverse_eq_some h).1, (MappingAttr.inverse_eq_some h).2.1, List.nil_subset _⟩

theorem inverse_eq (h : Determines m dims) :
    m.inverse = some ⟨m.size, (List.range m.useDomainSize).map (inverseAt m.dimensions)⟩ := by
  rw [MappingAttr.inverse, if_pos ⟨h.nodup, h.bound⟩]

theorem mono (h : Determines m dims) (sub : dims' ⊆ dims) : Determines m dims' :=
  ⟨h.nodup, h.bound, sub.trans h.mem⟩

/-- Only the referenced dimensions and the use domain matter. -/
theorem of_referencedDims_eq (h : Determines m dims) (use : m'.useDomainSize = m.useDomainSize)
    (refs : referencedDims m'.dimensions = referencedDims m.dimensions) : Determines m' dims :=
  ⟨refs ▸ h.nodup, by rw [refs, use]; exact h.bound, refs ▸ h.mem⟩

/-- Putting in front of a layout the iteration dimensions of new value dimensions `hs`, none of
which it reads yet, keeps it invertible and makes it read them. -/
theorem addPrefix_inverseAt {n : MappingAttr} {hs : List Nat} (perm : m.IsPermutation)
    (h : Determines (m.compose n) dims) (nodup : hs.Nodup)
    (fresh : ∀ d ∈ hs, dim d ∉ (m.compose n).dimensions) (bound : ∀ d ∈ hs, d < m.useDomainSize) :
    Determines (m.compose (n.addPrefix (hs.map (inverseAt m.dimensions))))
      (hs ++ referencedDims (m.compose n).dimensions) := by
  have refs : referencedDims (m.compose (n.addPrefix (hs.map (inverseAt m.dimensions)))).dimensions =
      hs ++ referencedDims (m.compose n).dimensions := by
    rw [MappingAttr.dimensions_compose, MappingAttr.dimensions_addPrefix, List.map_append,
      List.map_map, referencedDims_append, ← MappingAttr.dimensions_compose]
    have back : hs.map ((·.substituteDims m.dimensions) ∘ inverseAt m.dimensions) = hs.map dim :=
      List.map_congr_left fun d mem => perm.substituteDims_inverseAt (bound d mem)
    rw [back, referencedDims_map_dim]
  refine ⟨?_, ?_, by rw [refs]; exact List.Subset.refl _⟩
  · rw [refs, List.nodup_append]
    exact ⟨nodup, h.nodup, fun d new old => fresh d new (mem_referencedDims.mp old)⟩
  · rw [refs]
    intro d mem
    rcases List.mem_append.mp mem with new | old
    · exact bound d new
    · exact h.bound d old

end Determines

theorem determines_addPrefix_unknown {m n : MappingAttr} {dims : List Nat} (k : Nat)
    (h : Determines (m.compose n) dims) :
    Determines (m.compose (n.addPrefix (List.replicate k unknown))) dims :=
  h.of_referencedDims_eq rfl (by simp [List.map_replicate, MappingExpr.substituteDims])

theorem determines_makeFullySpecified {m n : MappingAttr} {dims : List Nat}
    (h : Determines (m.compose n) dims) : Determines (m.compose n.makeFullySpecified) dims := by
  refine h.of_referencedDims_eq rfl ?_
  simp only [MappingAttr.dimensions_compose, MappingAttr.dimensions_makeFullySpecified, List.map_map]
  exact referencedDims_map_congr fun e _ => by cases e <;> rfl

/-- Line 151: the inverse of the layout, read at the communication volume, is surjective when the
layout reads every communication dimension. -/
theorem isSurjective_compose_iff {m inv volume : MappingAttr} {cv : List Nat}
    (h : m.inverse = some inv) (hv : volume.dimensions = cv.map dim)
    (bound : ∀ d ∈ cv, d < m.useDomainSize) :
    (inv.compose volume).isSurjective = true ↔ cv ⊆ referencedDims m.dimensions := by
  obtain ⟨-, -, rfl⟩ := MappingAttr.inverse_eq_some h
  rw [compose_map_range hv bound]
  simp [MappingAttr.isSurjective, List.subset_def]

/-- `covers` is `Determines` for the communication dimensions of the operand. -/
theorem covers_iff {p : Program} {owner : Nat} {operand : ValueOperand} {layout : MappingAttr}
    (rank : operand.mapping.size ≤ (p.op operand.value.op).domain.length) :
    covers p owner operand layout = true ↔
      Determines ((p.iterationSpace operand.value.op).mapping.compose layout)
        (communicationDims operand.mapping.size (p.iterationSpace operand.value.op)
          (p.iterationSpace owner)) := by
  unfold covers
  split
  · next inv h =>
    obtain ⟨nodup, bound, -⟩ := MappingAttr.inverse_eq_some h
    rw [isSurjective_compose_iff h rfl fun d mem => ?_]
    · exact ⟨fun sub => ⟨nodup, bound, sub⟩, Determines.mem⟩
    · have := lt_of_mem_communicationDims mem
      simp only [MappingAttr.useDomainSize_compose, Program.iterationSpace,
        useDomainSize_iterationSpace]
      omega
  · next h =>
    simp only [Bool.false_eq_true, false_iff]
    intro det
    simp [det.inverse_eq] at h

end SairLowering
