import Mathlib.Data.List.Nodup
import Mathlib.Data.List.Perm.Basic

/-!
# Mapping algebra

Mapping expressions and mapping attributes, the dimension algebra every analysis of the default
lowering passes is written in. A mapping `m` goes from a use domain of `m.useDomainSize`
dimensions to a def domain with one dimension per expression of `m.dimensions`: the `i`-th
expression says how the `i`-th def dimension is read from the use domain.

The attribute classes are not part of the excerpted sources. Their operations are modelled from
the specification (section 4.1) and from the way `default_lowering_attributes.cc` uses them:
`Unify` lets `none` and `unknown` yield to the other side (the old layout is unified into the
extended one at lines 173-183, `unknown` is overwritten by `none` at line 202), and `Compose`
carries a `none` into the result, which line 151 then tests with `IsSurjective`.
-/

namespace SairLowering

/-- Modelled from the spec: a mapping expression is a reference to one input dimension, the
`none` placeholder (unused) or the `unknown` placeholder (to be resolved later). -/
inductive MappingExpr where
  | dim (dimension : Nat)
  | none
  | unknown
  deriving DecidableEq, Repr, Inhabited

namespace MappingExpr

/-- The expression references an input dimension. -/
def isDim : MappingExpr → Bool
  | dim _ => true
  | _ => false

/-- Modelled from the spec: `SubstituteDims`, pointwise substitution of input dimension `d` by
`exprs[d]`. Substituting a dimension that `exprs` marks `none` gives `none`. -/
def substituteDims : MappingExpr → List MappingExpr → MappingExpr
  | dim d, exprs => exprs.getD d none
  | none, _ => none
  | unknown, _ => unknown

/-- Modelled from the spec: `Unify`. Identical dimensions match, `none` and `unknown` yield to
the other expression, two different dimensions conflict. -/
def unify : MappingExpr → MappingExpr → Option MappingExpr
  | dim i, dim j => if i = j then some (dim i) else Option.none
  | dim i, _ => some (dim i)
  | none, e => some e
  | unknown, e => some e

/-- Modelled from the spec: `MinDomainSize`, the highest referenced input dimension plus one. -/
def minDomainSize : MappingExpr → Nat
  | dim d => d + 1
  | _ => 0

/-- Modelled from the spec: `MakeFullySpecified` turns `unknown` into `none`. -/
def makeFullySpecified : MappingExpr → MappingExpr
  | unknown => none
  | e => e

/-- `ShiftRight`: renumbers the referenced input dimension by `offset`. -/
def shiftRight (offset : Nat) : MappingExpr → MappingExpr
  | dim d => dim (d + offset)
  | e => e

@[simp] theorem isDim_dim (d : Nat) : (dim d).isDim = true := rfl

@[simp] theorem shiftRight_dim (d k : Nat) : (dim d).shiftRight k = dim (d + k) := rfl

theorem shiftRight_eq_dim {e : MappingExpr} {k i : Nat} :
    e.shiftRight k = dim i ↔ ∃ j, e = dim j ∧ i = j + k := by
  cases e <;> simp [shiftRight, eq_comm]

@[simp] theorem isDim_none : none.isDim = false := rfl
@[simp] theorem isDim_unknown : unknown.isDim = false := rfl

theorem isDim_iff {e : MappingExpr} : e.isDim = true ↔ ∃ d, e = dim d := by
  cases e <;> simp

@[simp] theorem substituteDims_dim (d : Nat) (exprs : List MappingExpr) :
    (dim d).substituteDims exprs = exprs.getD d none := rfl

@[simp] theorem unify_self (e : MappingExpr) : e.unify e = some e := by
  cases e <;> simp [unify]

@[simp] theorem unify_none_right (e : MappingExpr) (h : e ≠ unknown) : e.unify none = some e := by
  cases e <;> simp_all [unify]

@[simp] theorem unify_left_none (e : MappingExpr) : none.unify e = some e := rfl

@[simp] theorem unify_left_unknown (e : MappingExpr) : unknown.unify e = some e := rfl

/-- Unifying again with the result of a unification changes nothing. -/
theorem unify_idem {e f g : MappingExpr} (h : e.unify f = some g) : e.unify g = some g := by
  cases e with
  | dim i =>
    have result : g = dim i := by
      cases f with
      | dim j =>
        rw [unify] at h
        split at h
        · exact (Option.some.inj h).symm
        · cases h
      | none | unknown => exact (Option.some.inj h).symm
    simp [result]
  | none => rfl
  | unknown => rfl

theorem mem_of_substituteDims_eq_dim {e : MappingExpr} {es : List MappingExpr}
    {d : Nat} (h : e.substituteDims es = dim d) : dim d ∈ es := by
  cases e with
  | dim j =>
    rw [substituteDims_dim, List.getD_eq_getElem?_getD] at h
    cases found : es[j]? with
    | none => simp [found] at h
    | some e => simp only [found, Option.getD_some] at h; exact h ▸ List.getElem?_mem found
  | none | unknown => cases h

theorem eq_dim_of_unify {e f : MappingExpr} {d : Nat} (h : e.unify f = some (dim d)) :
    e = dim d ∨ f = dim d := by
  cases e with
  | dim i =>
    cases f <;> simp only [unify, Option.some.injEq] at h
    all_goals first | exact .inl h | (split at h <;> simp_all)
  | none | unknown => exact .inr (Option.some.inj h)

end MappingExpr

open MappingExpr

/-- The input dimensions referenced by a list of expressions, in order. -/
def referencedDims (exprs : List MappingExpr) : List Nat :=
  exprs.filterMap fun
    | dim d => some d
    | _ => Option.none

@[simp] theorem referencedDims_nil : referencedDims [] = [] := rfl

@[simp] theorem referencedDims_cons_dim (d : Nat) (es : List MappingExpr) :
    referencedDims (dim d :: es) = d :: referencedDims es := rfl

@[simp] theorem referencedDims_cons_none (es : List MappingExpr) :
    referencedDims (none :: es) = referencedDims es := rfl

@[simp] theorem referencedDims_cons_unknown (es : List MappingExpr) :
    referencedDims (unknown :: es) = referencedDims es := rfl

@[simp] theorem referencedDims_append (es fs : List MappingExpr) :
    referencedDims (es ++ fs) = referencedDims es ++ referencedDims fs :=
  List.filterMap_append _ _ _

@[simp] theorem mem_referencedDims {d : Nat} {es : List MappingExpr} :
    d ∈ referencedDims es ↔ dim d ∈ es := by
  induction es with
  | nil => simp
  | cons e es ih => cases e <;> simp [ih, eq_comm]

theorem referencedDims_cons (e : MappingExpr) (es : List MappingExpr) :
    referencedDims (e :: es) = referencedDims [e] ++ referencedDims es := by
  cases e <;> rfl

@[simp] theorem referencedDims_replicate_unknown (k : Nat) :
    referencedDims (List.replicate k unknown) = [] := by
  induction k with
  | zero => rfl
  | succ k ih => simp [List.replicate_succ, ih]

/-- Two rewritings of a list that reference the same dimensions expression by expression
reference the same dimensions. -/
theorem referencedDims_map_congr {f g : MappingExpr → MappingExpr} {es : List MappingExpr}
    (same : ∀ e ∈ es, referencedDims [f e] = referencedDims [g e]) :
    referencedDims (es.map f) = referencedDims (es.map g) := by
  induction es with
  | nil => rfl
  | cons e es ih =>
    rw [List.map_cons, List.map_cons, referencedDims_cons, referencedDims_cons (g e),
      same e (List.mem_cons_self e es), ih fun e' mem => same e' (List.mem_cons_of_mem e mem)]

theorem length_referencedDims {es : List MappingExpr} (dims : es.all (·.isDim)) :
    (referencedDims es).length = es.length := by
  induction es with
  | nil => rfl
  | cons e es ih =>
    cases e with
    | dim d =>
      simp only [List.all_cons, MappingExpr.isDim_dim, Bool.true_and] at dims
      simp [ih dims]
    | none | unknown => simp at dims

/-- The output position that references input dimension `d`: `dim i` for the first `i` with
`exprs[i] = dim d`, `none` when no expression references `d`. -/
def inverseAt : List MappingExpr → Nat → MappingExpr
  | [], _ => none
  | e :: es, d => if e = dim d then dim 0 else (inverseAt es d).shiftRight 1

/-- `MakeSurjective` on a list of expressions: every `none` or `unknown` becomes a fresh input
dimension, numbered from `next` on in the order the holes appear. -/
def fillHoles : List MappingExpr → Nat → List MappingExpr
  | [], _ => []
  | dim d :: es, next => dim d :: fillHoles es next
  | _ :: es, next => dim next :: fillHoles es (next + 1)

/-- Number of `none` or `unknown` expressions. -/
def holeCount (exprs : List MappingExpr) : Nat :=
  exprs.countP fun e => !e.isDim

/-- Expression-wise `Unify` of two lists of the same length. -/
def unifyAll : List MappingExpr → List MappingExpr → Option (List MappingExpr)
  | [], [] => some []
  | e :: es, f :: fs => do
    let g ← e.unify f
    let gs ← unifyAll es fs
    pure (g :: gs)
  | _, _ => Option.none

/-! ## Lemmas on expression lists -/

@[simp] theorem inverseAt_nil (d : Nat) : inverseAt [] d = .none := rfl

theorem inverseAt_cons (e : MappingExpr) (es : List MappingExpr) (d : Nat) :
    inverseAt (e :: es) d = if e = dim d then dim 0 else (inverseAt es d).shiftRight 1 := rfl

/-- `inverseAt` only answers with a position that references the dimension. -/
theorem getElem?_of_inverseAt_eq_dim {es : List MappingExpr} {d i : Nat}
    (found : inverseAt es d = dim i) : es[i]? = some (dim d) := by
  induction es generalizing i with
  | nil => simp at found
  | cons e es ih =>
    rw [inverseAt_cons] at found
    split at found
    · next head =>
      cases found
      simp [head]
    · obtain ⟨k, hk, rfl⟩ := MappingExpr.shiftRight_eq_dim.mp found
      simpa using ih hk

theorem inverseAt_eq_none_of_not_mem {es : List MappingExpr} {d : Nat} (absent : dim d ∉ es) :
    inverseAt es d = .none := by
  induction es with
  | nil => rfl
  | cons e es ih =>
    simp only [List.mem_cons, not_or] at absent
    simp [inverseAt_cons, Ne.symm absent.1, ih absent.2, MappingExpr.shiftRight]

theorem exists_inverseAt_eq_dim {es : List MappingExpr} {d : Nat} (present : dim d ∈ es) :
    ∃ i, inverseAt es d = dim i := by
  induction es with
  | nil => simp at present
  | cons e es ih =>
    by_cases head : e = dim d
    · exact ⟨0, by simp [inverseAt_cons, head]⟩
    · obtain ⟨i, hi⟩ := ih (by simpa [Ne.symm head] using present)
      exact ⟨i + 1, by simp [inverseAt_cons, head, hi, MappingExpr.shiftRight]⟩

/-- With no dimension referenced twice, a referenced dimension has one position. -/
theorem index_unique {es : List MappingExpr} (nodup : (referencedDims es).Nodup) {d i j : Nat}
    (hi : es[i]? = some (dim d)) (hj : es[j]? = some (dim d)) : i = j := by
  induction es generalizing i j with
  | nil => simp at hi
  | cons e es ih =>
    cases i <;> cases j <;> simp only [List.getElem?_cons_zero, List.getElem?_cons_succ,
      Option.some.injEq] at hi hj
    · rfl
    · subst hi; simp only [referencedDims_cons_dim, List.nodup_cons] at nodup
      exact absurd (mem_referencedDims.mpr (List.getElem?_mem hj)) nodup.1
    · subst hj; simp only [referencedDims_cons_dim, List.nodup_cons] at nodup
      exact absurd (mem_referencedDims.mpr (List.getElem?_mem hi)) nodup.1
    · have tail : (referencedDims es).Nodup :=
        (List.nodup_append.mp (referencedDims_cons e es ▸ nodup)).2.1
      rw [ih tail hi hj]

theorem inverseAt_eq_dim_iff {es : List MappingExpr} (nodup : (referencedDims es).Nodup)
    {d i : Nat} : inverseAt es d = dim i ↔ es[i]? = some (dim d) := by
  refine ⟨getElem?_of_inverseAt_eq_dim, fun hi => ?_⟩
  obtain ⟨j, hj⟩ := exists_inverseAt_eq_dim (List.getElem?_mem hi)
  rw [hj, index_unique nodup hi (getElem?_of_inverseAt_eq_dim hj)]

@[simp] theorem isDim_inverseAt {es : List MappingExpr} {d : Nat} :
    (inverseAt es d).isDim = true ↔ dim d ∈ es := by
  by_cases present : dim d ∈ es
  · obtain ⟨i, hi⟩ := exists_inverseAt_eq_dim present
    simp [hi, present]
  · simp [inverseAt_eq_none_of_not_mem present, present]

theorem inverseAt_ne_unknown (es : List MappingExpr) (d : Nat) : inverseAt es d ≠ unknown := by
  by_cases present : dim d ∈ es
  · obtain ⟨i, hi⟩ := exists_inverseAt_eq_dim present
    simp [hi]
  · simp [inverseAt_eq_none_of_not_mem present]

/-- Distinct dimensions map to distinct positions through an inverse. -/
theorem nodup_referencedDims_map_inverseAt {es : List MappingExpr} {cv : List Nat}
    (nodup : cv.Nodup) :
    (referencedDims (cv.map (inverseAt es))).Nodup := by
  induction cv with
  | nil => simp
  | cons d cv ih =>
    simp only [List.nodup_cons] at nodup
    cases h : inverseAt es d with
    | dim j =>
      simp only [List.map_cons, h, referencedDims_cons_dim, List.nodup_cons, mem_referencedDims,
        List.mem_map, ih nodup.2, and_true]
      rintro ⟨d', mem, same⟩
      have := (getElem?_of_inverseAt_eq_dim h).symm.trans (getElem?_of_inverseAt_eq_dim same)
      simp only [Option.some.injEq, MappingExpr.dim.injEq] at this
      exact nodup.1 (this ▸ mem)
    | none => simpa [h] using ih nodup.2
    | unknown => exact absurd h (inverseAt_ne_unknown es d)

@[simp] theorem fillHoles_length (es : List MappingExpr) (next : Nat) :
    (fillHoles es next).length = es.length := by
  induction es generalizing next with
  | nil => rfl
  | cons e es ih => cases e <;> simp [fillHoles, ih]

@[simp] theorem holeCount_nil : holeCount [] = 0 := rfl

@[simp] theorem holeCount_cons (e : MappingExpr) (es : List MappingExpr) :
    holeCount (e :: es) = holeCount es + if e.isDim then 0 else 1 := by
  cases e <;> simp [holeCount, List.countP_cons]

/-- The `j`-th expression after `fillHoles`: a dimension stays, the hole gets the next fresh
dimension, `next` plus the number of holes before it. -/
theorem getElem?_fillHoles (es : List MappingExpr) (next j : Nat) :
    (fillHoles es next)[j]? =
      es[j]?.map fun e => if e.isDim then e else dim (next + holeCount (es.take j)) := by
  induction es generalizing next j with
  | nil => simp [fillHoles]
  | cons e es ih =>
    cases j with
    | zero => cases e <;> simp [fillHoles]
    | succ j => cases e <;> simp [fillHoles, ih, Nat.add_assoc, Nat.add_comm 1]

theorem mem_fillHoles {es : List MappingExpr} {next x : Nat} :
    dim x ∈ fillHoles es next ↔ dim x ∈ es ∨ next ≤ x ∧ x < next + holeCount es := by
  induction es generalizing next with
  | nil => simp [fillHoles]
  | cons e es ih =>
    cases e with
    | dim j =>
      simp only [fillHoles, List.mem_cons, ih, holeCount_cons, MappingExpr.isDim_dim, if_true,
        Nat.add_zero, or_assoc]
    | none | unknown =>
      simp only [fillHoles, List.mem_cons, MappingExpr.dim.injEq, ih, holeCount_cons,
        MappingExpr.isDim_none, MappingExpr.isDim_unknown, Bool.false_eq_true, if_false,
        reduceCtorEq, false_or]
      constructor
      · rintro (rfl | old | ⟨low, high⟩)
        · exact .inr ⟨le_rfl, by omega⟩
        · exact .inl old
        · exact .inr ⟨by omega, by omega⟩
      · rintro (old | ⟨low, high⟩)
        · exact .inr (.inl old)
        · by_cases first : x = next
          · exact .inl first
          · exact .inr (.inr ⟨by omega, by omega⟩)

/-- The fresh dimensions of `fillHoles` are distinct and above the dimensions already there. -/
theorem nodup_fillHoles {es : List MappingExpr} {next : Nat} (nodup : (referencedDims es).Nodup)
    (below : ∀ j, dim j ∈ es → j < next) : (referencedDims (fillHoles es next)).Nodup := by
  induction es generalizing next with
  | nil => simp [fillHoles]
  | cons e es ih =>
    cases e with
    | dim j =>
      simp only [referencedDims_cons_dim, List.nodup_cons, mem_referencedDims] at nodup
      have tail : ∀ j', dim j' ∈ es → j' < next := fun j' mem => below j' (by simp [mem])
      have := below j (by simp)
      simp only [fillHoles, referencedDims_cons_dim, List.nodup_cons, mem_referencedDims,
        mem_fillHoles, ih nodup.2 tail, and_true, not_or, not_and]
      exact ⟨nodup.1, by omega⟩
    | none | unknown =>
      have tail : ∀ j, dim j ∈ es → j < next + 1 := fun j mem => by
        have := below j (by simp [mem]); omega
      simp only [referencedDims_cons_none, referencedDims_cons_unknown] at nodup
      simp only [fillHoles, referencedDims_cons_dim, List.nodup_cons, mem_referencedDims,
        mem_fillHoles, ih nodup tail, and_true, not_or, not_and]
      exact ⟨fun mem => by have := below next (by simp [mem]); omega, by omega⟩

/-- Reading the filled expressions back at the fresh dimensions `next, next + 1, ...` gives the
positions of the holes, in order. -/
theorem map_inverseAt_fillHoles {es : List MappingExpr} {next : Nat}
    (below : ∀ j, dim j ∈ es → j < next) :
    (List.range (holeCount es)).map (fun u => inverseAt (fillHoles es next) (next + u)) =
      ((List.range es.length).filter fun i => !(es.getD i .none).isDim).map dim := by
  induction es generalizing next with
  | nil => rfl
  | cons e es ih =>
    rw [List.length_cons, List.range_succ_eq_map, List.filter_cons, List.filter_map]
    cases e with
    | dim j =>
      have tail : ∀ j', dim j' ∈ es → j' < next := fun j' mem => below j' (by simp [mem])
      have := below j (by simp)
      have shifted : ∀ u, inverseAt (fillHoles (dim j :: es) next) (next + u) =
          (inverseAt (fillHoles es next) (next + u)).shiftRight 1 := fun u => by
        rw [fillHoles, inverseAt_cons, if_neg (by simp; omega)]
      simp only [holeCount_cons, MappingExpr.isDim_dim, if_true, Nat.add_zero, List.getD_cons_zero,
        Bool.not_true, Bool.false_eq_true, if_false, shifted]
      simpa only [List.map_map, Function.comp_def, MappingExpr.shiftRight_dim] using
        congrArg (List.map (MappingExpr.shiftRight 1)) (ih tail)
    | none | unknown =>
      have tail : ∀ j, dim j ∈ es → j < next + 1 := fun j mem => by
        have := below j (by simp [mem]); omega
      simp only [fillHoles, holeCount_cons, MappingExpr.isDim_none, MappingExpr.isDim_unknown,
        Bool.false_eq_true, if_false, List.getD_cons_zero, Bool.not_false, if_true,
        List.range_succ_eq_map, List.map_cons, List.map_map, inverseAt_cons, Function.comp_def,
        Nat.add_zero, if_pos, MappingExpr.dim.injEq, Nat.self_eq_add_right, Nat.add_one_ne_zero,
        List.getD_cons_succ]
      simpa only [List.map_map, Function.comp_def, MappingExpr.shiftRight_dim, Nat.succ_eq_add_one,
        List.cons.injEq, true_and, Nat.add_assoc, Nat.add_comm 1] using
        congrArg (List.map (MappingExpr.shiftRight 1)) (ih tail)

/-- `unifyAll` returns its right argument when every left expression yields to it. -/
theorem unifyAll_eq_right {es fs : List MappingExpr}
    (below : List.Forall₂ (fun e f => e.unify f = some f) es fs) : unifyAll es fs = some fs := by
  induction below with
  | nil => rfl
  | cons head _ ih => simp [unifyAll, head, ih]

/-- `unifyAll` returns its left argument when every right expression yields to it. -/
theorem unifyAll_length {es fs gs : List MappingExpr} (h : unifyAll es fs = some gs) :
    gs.length = fs.length ∧ es.length = fs.length := by
  induction es generalizing fs gs with
  | nil => cases fs <;> simp_all [unifyAll]
  | cons e es ih =>
    cases fs with
    | nil => simp [unifyAll] at h
    | cons f fs =>
      simp only [unifyAll, Option.bind_eq_bind, Option.bind_eq_some, Option.pure_def,
        Option.some.injEq] at h
      obtain ⟨g, -, gs', rest, rfl⟩ := h
      simp [ih rest]

/-- A unification only returns dimensions one of its sides has. -/
theorem mem_of_unifyAll {es fs gs : List MappingExpr} (h : unifyAll es fs = some gs) {d : Nat}
    (mem : dim d ∈ gs) : dim d ∈ es ∨ dim d ∈ fs := by
  induction es generalizing fs gs with
  | nil => cases fs <;> simp_all [unifyAll]
  | cons e es ih =>
    cases fs with
    | nil => simp [unifyAll] at h
    | cons f fs =>
      simp only [unifyAll, Option.bind_eq_bind, Option.bind_eq_some, Option.pure_def,
        Option.some.injEq] at h
      obtain ⟨g, head, gs', rest, rfl⟩ := h
      rcases List.mem_cons.mp mem with rfl | later
      · rcases MappingExpr.eq_dim_of_unify head with rfl | rfl
        · exact .inl (List.mem_cons_self _ _)
        · exact .inr (List.mem_cons_self _ _)
      · rcases ih rest later with old | old
        · exact .inl (List.mem_cons_of_mem e old)
        · exact .inr (List.mem_cons_of_mem f old)

theorem unifyAll_idem {es fs gs : List MappingExpr} (h : unifyAll es fs = some gs) :
    unifyAll es gs = some gs := by
  induction es generalizing fs gs with
  | nil => cases fs <;> simp_all [unifyAll]
  | cons e es ih =>
    cases fs with
    | nil => simp [unifyAll] at h
    | cons f fs =>
      simp only [unifyAll, Option.bind_eq_bind, Option.bind_eq_some, Option.pure_def,
        Option.some.injEq] at h
      obtain ⟨g, head, gs', rest, rfl⟩ := h
      simp [unifyAll, MappingExpr.unify_idem head, ih rest]

theorem unifyAll_self (es : List MappingExpr) : unifyAll es es = some es :=
  unifyAll_eq_right (List.forall₂_same.mpr fun e _ => MappingExpr.unify_self e)

/-- Every expression that is never `unknown` absorbs `none`. -/
theorem unifyAll_replicate_none {es : List MappingExpr} (known : unknown ∉ es) :
    unifyAll es (List.replicate es.length .none) = some es := by
  induction es with
  | nil => rfl
  | cons e es ih =>
    simp only [List.mem_cons, not_or] at known
    simp [List.replicate_succ, unifyAll, MappingExpr.unify_none_right e (Ne.symm known.1), ih known.2]

/-- `unknown` yields to every expression. -/
theorem unifyAll_replicate_unknown (es : List MappingExpr) :
    unifyAll (List.replicate es.length unknown) es = some es :=
  unifyAll_eq_right (List.forall₂_iff_get.mpr ⟨by simp, fun _ _ _ => by simp⟩)

theorem unifyAll_append {es fs es' fs' : List MappingExpr} (same : es.length = fs.length) :
    unifyAll (es ++ es') (fs ++ fs') =
      (unifyAll es fs).bind fun gs => (unifyAll es' fs').map (gs ++ ·) := by
  induction es generalizing fs with
  | nil => cases fs <;> simp_all [unifyAll]
  | cons e es ih =>
    cases fs with
    | nil => simp at same
    | cons f fs =>
      simp only [List.cons_append, unifyAll, List.length_cons, Nat.add_right_cancel_iff] at same ⊢
      cases e.unify f <;> simp [ih same]
      cases unifyAll es fs <;> simp
      cases unifyAll es' fs' <;> simp

/-- Modelled from the spec: a mapping from a use domain of `useDomainSize` dimensions to a def
domain with one dimension per expression. -/
structure MappingAttr where
  useDomainSize : Nat
  dimensions : List MappingExpr
  deriving DecidableEq, Repr, Inhabited

namespace MappingAttr

/-- Number of def-domain dimensions. -/
def size (m : MappingAttr) : Nat := m.dimensions.length

/-- Modelled from the spec: `m.Compose(n)` maps `m`'s use domain to `n`'s def domain by
substituting `m`'s expressions into `n`'s. -/
def compose (m n : MappingAttr) : MappingAttr :=
  ⟨m.useDomainSize, n.dimensions.map (·.substituteDims m.dimensions)⟩

/-- Modelled from the spec: `Inverse` succeeds when no input dimension is referenced twice (and
every reference is in range); input dimension `d` then maps to the output that references it,
or to `none`. -/
def inverse (m : MappingAttr) : Option MappingAttr :=
  if (referencedDims m.dimensions).Nodup ∧ ∀ d ∈ referencedDims m.dimensions, d < m.useDomainSize
  then some ⟨m.size, (List.range m.useDomainSize).map (inverseAt m.dimensions)⟩
  else Option.none

/-- Modelled from the spec: `IsSurjective`, every def dimension is determined by the use
domain. -/
def isSurjective (m : MappingAttr) : Bool := m.dimensions.all (·.isDim)

/-- Modelled from the spec: `MakeSurjective` fills the holes with fresh use dimensions. -/
def makeSurjective (m : MappingAttr) : MappingAttr :=
  ⟨m.useDomainSize + holeCount m.dimensions, fillHoles m.dimensions m.useDomainSize⟩

/-- Modelled from the spec: expression-wise `Unify`; fails on different use domains or sizes. -/
def unify (m n : MappingAttr) : Option MappingAttr :=
  if m.useDomainSize = n.useDomainSize then
    (unifyAll m.dimensions n.dimensions).map (⟨m.useDomainSize, ·⟩)
  else Option.none

/-- Modelled from the spec: `MinDomainSize`. -/
def minDomainSize (m : MappingAttr) : Nat :=
  (m.dimensions.map MappingExpr.minDomainSize).foldr max 0

/-- `Resize(n)`: keeps the first `n` expressions and pads with `none`. -/
def resize (m : MappingAttr) (n : Nat) : MappingAttr :=
  ⟨m.useDomainSize, m.dimensions.take n ++ List.replicate (n - m.size) MappingExpr.none⟩

/-- `ShiftRight(offset)`: `offset` new use dimensions in front of the old ones. -/
def shiftRight (m : MappingAttr) (offset : Nat) : MappingAttr :=
  ⟨m.useDomainSize + offset, m.dimensions.map (MappingExpr.shiftRight offset)⟩

/-- `AddPrefix(exprs)`: new def dimensions in front. -/
def addPrefix (m : MappingAttr) (exprs : List MappingExpr) : MappingAttr :=
  ⟨m.useDomainSize, exprs ++ m.dimensions⟩

/-- `AddSuffix(exprs)`: new def dimensions at the end. -/
def addSuffix (m : MappingAttr) (exprs : List MappingExpr) : MappingAttr :=
  ⟨m.useDomainSize, m.dimensions ++ exprs⟩

/-- `GetIdentity(n)`. -/
def identity (n : Nat) : MappingAttr := ⟨n, (List.range n).map dim⟩

/-- Modelled from the spec: `MakeFullySpecified` turns every `unknown` into `none`. -/
def makeFullySpecified (m : MappingAttr) : MappingAttr :=
  ⟨m.useDomainSize, m.dimensions.map MappingExpr.makeFullySpecified⟩

/-- No expression is `unknown`. -/
def isFullySpecified (m : MappingAttr) : Bool := m.dimensions.all (· != unknown)

/-- `DependencyMask().set_bits()`: the referenced use dimensions in increasing order. -/
def dependencyMask (m : MappingAttr) : List Nat :=
  (List.range m.useDomainSize).filter fun d => dim d ∈ m.dimensions

@[simp] theorem useDomainSize_compose (m n : MappingAttr) :
    (m.compose n).useDomainSize = m.useDomainSize := rfl
@[simp] theorem dimensions_compose (m n : MappingAttr) :
    (m.compose n).dimensions = n.dimensions.map (·.substituteDims m.dimensions) := rfl
@[simp] theorem useDomainSize_makeSurjective (m : MappingAttr) :
    m.makeSurjective.useDomainSize = m.useDomainSize + holeCount m.dimensions := rfl
@[simp] theorem dimensions_makeSurjective (m : MappingAttr) :
    m.makeSurjective.dimensions = fillHoles m.dimensions m.useDomainSize := rfl
@[simp] theorem useDomainSize_addPrefix (m : MappingAttr) (exprs : List MappingExpr) :
    (m.addPrefix exprs).useDomainSize = m.useDomainSize := rfl
@[simp] theorem dimensions_addPrefix (m : MappingAttr) (exprs : List MappingExpr) :
    (m.addPrefix exprs).dimensions = exprs ++ m.dimensions := rfl
@[simp] theorem addPrefix_nil (m : MappingAttr) : m.addPrefix [] = m := rfl
@[simp] theorem useDomainSize_makeFullySpecified (m : MappingAttr) :
    m.makeFullySpecified.useDomainSize = m.useDomainSize := rfl
@[simp] theorem dimensions_makeFullySpecified (m : MappingAttr) :
    m.makeFullySpecified.dimensions = m.dimensions.map MappingExpr.makeFullySpecified := rfl
@[simp] theorem size_def (m : MappingAttr) : m.size = m.dimensions.length := rfl

theorem unify_eq_some {m n r : MappingAttr} :
    m.unify n = some r ↔ m.useDomainSize = n.useDomainSize ∧
      r.useDomainSize = m.useDomainSize ∧ unifyAll m.dimensions n.dimensions = some r.dimensions := by
  unfold unify
  split
  · next same =>
    cases r
    simp only [Option.map_eq_some', MappingAttr.mk.injEq, same, true_and]
    constructor
    · rintro ⟨gs, found, rfl, rfl⟩; exact ⟨rfl, found⟩
    · rintro ⟨rfl, found⟩; exact ⟨_, found, rfl, rfl⟩
  · simp_all

theorem inverse_eq_some {m inv : MappingAttr} (h : m.inverse = some inv) :
    (referencedDims m.dimensions).Nodup ∧ (∀ d ∈ referencedDims m.dimensions, d < m.useDomainSize) ∧
      inv = ⟨m.size, (List.range m.useDomainSize).map (inverseAt m.dimensions)⟩ := by
  unfold inverse at h
  split at h
  · next valid => exact ⟨valid.1, valid.2, (Option.some.inj h).symm⟩
  · cases h

theorem unify_self (m : MappingAttr) : m.unify m = some m :=
  unify_eq_some.mpr ⟨rfl, rfl, unifyAll_self _⟩

theorem unify_idem {m n r : MappingAttr} (h : m.unify n = some r) : m.unify r = some r := by
  obtain ⟨-, use, found⟩ := unify_eq_some.mp h
  exact unify_eq_some.mpr ⟨use.symm, use, unifyAll_idem found⟩

/-- `MakeFullySpecified` only refines: unifying a mapping with it gives it back. -/
theorem unify_makeFullySpecified (m : MappingAttr) :
    m.unify m.makeFullySpecified = some m.makeFullySpecified :=
  unify_eq_some.mpr ⟨rfl, rfl, unifyAll_eq_right (List.forall₂_map_right_iff.mpr
    (List.forall₂_same.mpr fun e _ => by cases e <;> simp [MappingExpr.makeFullySpecified]))⟩

/-- New leading `unknown` entries yield to whatever the same mapping gets in front instead. -/
theorem unify_addPrefix_unknown (m : MappingAttr) {exprs : List MappingExpr} {k : Nat}
    (hk : exprs.length = k) :
    (m.addPrefix (List.replicate k unknown)).unify (m.addPrefix exprs) = some (m.addPrefix exprs) := by
  subst hk
  refine unify_eq_some.mpr ⟨rfl, rfl, ?_⟩
  rw [dimensions_addPrefix, dimensions_addPrefix, unifyAll_append (by simp),
    unifyAll_replicate_unknown, unifyAll_self]
  rfl

theorem size_of_unify {m n r : MappingAttr} (h : m.unify n = some r) :
    r.size = n.size ∧ r.useDomainSize = m.useDomainSize := by
  obtain ⟨-, use, found⟩ := unify_eq_some.mp h
  exact ⟨(unifyAll_length found).1, use⟩

theorem isFullySpecified_makeFullySpecified (m : MappingAttr) :
    m.makeFullySpecified.isFullySpecified = true := by
  simp only [isFullySpecified, dimensions_makeFullySpecified, List.all_map,
    List.all_eq_true]
  intro e _; cases e <;> simp [MappingExpr.makeFullySpecified]

/-- Every referenced dimension is a dimension of the use domain, as the verifier of
`MappingAttr` checks. -/
def InRange (m : MappingAttr) : Prop := ∀ d ∈ referencedDims m.dimensions, d < m.useDomainSize

theorem InRange.compose {m : MappingAttr} (h : m.InRange) (n : MappingAttr) : (m.compose n).InRange := by
  intro d mem
  obtain ⟨e, -, read⟩ := List.mem_map.mp (mem_referencedDims.mp mem)
  exact h d (mem_referencedDims.mpr (MappingExpr.mem_of_substituteDims_eq_dim read))

theorem inRange_of_inverse {m inv : MappingAttr} (h : m.inverse = some inv) : inv.InRange := by
  obtain ⟨-, -, rfl⟩ := inverse_eq_some h
  intro d mem
  obtain ⟨x, -, found⟩ := List.mem_map.mp (mem_referencedDims.mp mem)
  exact (List.getElem?_eq_some_iff.mp (getElem?_of_inverseAt_eq_dim found)).1

theorem InRange.unify {m n r : MappingAttr} (h : m.unify n = some r) (hm : m.InRange)
    (hn : n.InRange) : r.InRange := by
  obtain ⟨same, use, found⟩ := unify_eq_some.mp h
  intro d mem
  rw [use]
  rcases mem_of_unifyAll found (mem_referencedDims.mp mem) with old | old
  · exact hm d (mem_referencedDims.mpr old)
  · exact same ▸ hn d (mem_referencedDims.mpr old)

theorem InRange.addPrefix {m : MappingAttr} (h : m.InRange) {exprs : List MappingExpr}
    (noDims : ∀ d, dim d ∉ exprs) : (m.addPrefix exprs).InRange := by
  intro d mem
  rcases List.mem_append.mp (mem_referencedDims.mp mem) with new | old
  · exact absurd new (noDims d)
  · exact h d (mem_referencedDims.mpr old)

theorem InRange.makeFullySpecified {m : MappingAttr} (h : m.InRange) :
    m.makeFullySpecified.InRange := by
  intro d mem
  obtain ⟨e, old, read⟩ := List.mem_map.mp (mem_referencedDims.mp mem)
  cases e <;> cases read
  exact h d (mem_referencedDims.mpr old)

end MappingAttr

end SairLowering
