import Mathlib
import TorchSpyre.Checked
import TorchSpyre.Contiguous

/-!
# Delinearized indexes

`_delinearize_index` in `wsr/for_each_tile_lowering.py` takes a flat index apart into the
coordinates of a layout. A dimension gets the terms that `Expr.coeff` finds for its stride, and
the constant is peeled, the largest stride first, over the dimensions that get no term.

The constant is never lost (`peel_total`). `coeff` finds a term for a stride `s` if its coefficient
is `s`, or `-s` for `s` above one. For the stride `-1` it finds every negative term, and for the
stride `1` no negative one (`Takes`). What is found counts with the coefficient of the term
(`stride_mul_foundTerm`), so coordinates give the index if every term is found by exactly one
dimension. The code raises if two dimensions share a stride or if the constant cannot be written
with digits over the dimensions that get no term (`delinearizeIndex_ok_iff`).
-/

open List

namespace TorchSpyre

open Checked

namespace Delinearize

variable {ν : Type}

/-- An affine index, expanded : a constant and multiples of different loop variables. -/
structure LinearIndex (ν : Type) where
  constant : ℤ
  terms : List (ν × ℤ)
  nodup : (terms.map Prod.fst).Nodup
  ne_zero : ∀ t ∈ terms, t.2 ≠ 0

/-- The value of an index at a point. -/
def LinearIndex.eval (index : LinearIndex ν) (pt : ν → ℤ) : ℤ :=
  index.constant + (index.terms.map fun t => t.2 * pt t.1).sum

/-- A coordinate : what `coeff` finds, or a digit. -/
inductive DimCoord (ν : Type) where
  | symbolic (terms : List (ν × ℤ))
  | digit (value : ℤ)
deriving DecidableEq

/-- The value of a coordinate at a point. -/
def DimCoord.eval (pt : ν → ℤ) : DimCoord ν → ℤ
  | .symbolic terms => (terms.map fun t => t.2 * pt t.1).sum
  | .digit value => value

/-- Why an index is refused. -/
inductive DelinearizeError where
  | sharedStride (dim : ℕ) (stride : ℤ)
  | outOfBounds (dim : ℕ) (digit : ℤ)
  | leftOver (residual : ℤ)
deriving DecidableEq

/-- What `Expr.coeff` leaves of a term for a number. A negative coefficient counts as two factors,
except that the number `1` asks for terms without a coefficient. -/
def foundTerm (stride : ℤ) (t : ν × ℤ) : Option (ν × ℤ) :=
  if stride = 1 then if t.2 = 1 then some (t.1, 1) else none
  else if stride = -1 then if t.2 < 0 then some (t.1, -t.2) else none
  else if t.2 = stride then some (t.1, 1)
  else if 1 < stride ∧ t.2 = -stride then some (t.1, -1)
  else none

section Layout

variable (dims : List (ℕ × ℤ))

/-- The size and stride of a dimension. -/
def dimAt (i : ℕ) : ℕ × ℤ :=
  dims.getD i (1, 0)

/-- A dimension whose stride is looked up. -/
def Keyed (i : ℕ) : Prop :=
  (dimAt dims i).1 ≠ 1 ∧ (dimAt dims i).2 ≠ 0

instance : DecidablePred (Keyed dims) :=
  fun _ => inferInstanceAs (Decidable (_ ∧ _))

/-- Two dimensions must not share a stride. -/
def checkStride (i : ℕ) : Except DelinearizeError Unit :=
  guardE (¬(Keyed dims i ∧ ∃ j < i, Keyed dims j ∧ (dimAt dims j).2 = (dimAt dims i).2))
    (.sharedStride i (dimAt dims i).2)

/-- The coordinate of a dimension after the first loop, `none` for a constant dimension. -/
def dimCoord (terms : List (ν × ℤ)) (i : ℕ) : Option (DimCoord ν) :=
  if Keyed dims i then
    if terms.filterMap (foundTerm (dimAt dims i).2) = [] then none
    else some (.symbolic (terms.filterMap (foundTerm (dimAt dims i).2)))
  else some (.digit 0)

/-- The body of the second loop. The state has the digits and the residual. -/
def peelDim (st : (ℕ → ℤ) × ℤ) (i : ℕ) : Except DelinearizeError ((ℕ → ℤ) × ℤ) := do
  let digit := st.2.fdiv (dimAt dims i).2
  guardE (0 ≤ digit ∧ digit < (dimAt dims i).1) (.outOfBounds i digit)
  return (Function.update st.1 i digit, st.2.fmod (dimAt dims i).2)

/-- The dimensions without a symbol. -/
def constDims (terms : List (ν × ℤ)) : List ℕ :=
  (List.range dims.length).filter fun i => (dimCoord dims terms i).isNone

/-- `_delinearize_index`. -/
def delinearizeIndex (index : LinearIndex ν) (offset : ℤ) :
    Except DelinearizeError (List (DimCoord ν)) := do
  checkAll (checkStride dims) (List.range dims.length)
  let sorted := (constDims dims index.terms).insertionSort fun i j =>
    (dimAt dims j).2 ≤ (dimAt dims i).2
  let st ← foldE (peelDim dims) (0, index.constant - offset) sorted
  guardE (st.2 = 0) (.leftOver st.2)
  return (List.range dims.length).map fun i =>
    (dimCoord dims index.terms i).getD (.digit (st.1 i))

/-- Two dimensions have the same stride. -/
def SharedStride : Prop :=
  ∃ i < dims.length, Keyed dims i ∧ ∃ j < i, Keyed dims j ∧ (dimAt dims j).2 = (dimAt dims i).2

/-- The coefficients that a stride takes. -/
def Takes (stride coeff : ℤ) : Prop :=
  coeff = stride ∨ 1 < stride ∧ coeff = -stride ∨ stride = -1 ∧ coeff < 0

instance (stride coeff : ℤ) : Decidable (Takes stride coeff) :=
  inferInstanceAs (Decidable (_ ∨ _ ∨ _))

/-- The dimensions that get a term with this coefficient. -/
def takers (coeff : ℤ) : Finset ℕ :=
  (Finset.range dims.length).filter fun i => Keyed dims i ∧ Takes (dimAt dims i).2 coeff

/-- The dimensions over which the constant is written. -/
def openDims (terms : List (ν × ℤ)) : Finset ℕ :=
  (Finset.range dims.length).filter fun i =>
    Keyed dims i ∧ ∀ t ∈ terms, ¬Takes (dimAt dims i).2 t.2

/-- What a division by `s` can leave, rounded down. -/
def IsRest (s r : ℤ) : Prop :=
  0 ≤ r ∧ r < s ∨ s < r ∧ r ≤ 0

/-- A constant written with digits over dimensions. The digits of smaller strides make up what a
division by the stride can leave. -/
structure Written (free : Finset ℕ) (digits : ℕ → ℤ) (c : ℤ) : Prop where
  bounds : ∀ i ∈ free, 0 ≤ digits i ∧ digits i < (dimAt dims i).1
  rest : ∀ i ∈ free, IsRest (dimAt dims i).2
    (∑ j ∈ free with (dimAt dims j).2 < (dimAt dims i).2, (dimAt dims j).2 * digits j)
  total : ∑ i ∈ free, (dimAt dims i).2 * digits i = c

variable {dims}

/-! ## The constant -/

theorem isRest_fmod {s : ℤ} (hs : s ≠ 0) (c : ℤ) : IsRest s (c.fmod s) := by
  rcases lt_or_gt_of_ne hs with hneg | hpos
  · right
    have hle := Int.fmod_nonneg_of_pos (-c) (neg_pos.mpr hneg)
    have hlt := Int.fmod_lt_of_pos (-c) (neg_pos.mpr hneg)
    rw [Int.neg_fmod_neg] at hle hlt
    omega
  · exact Or.inl ⟨Int.fmod_nonneg_of_pos c hpos, Int.fmod_lt_of_pos c hpos⟩

/-- Quotient and rest are unique. -/
theorem fdiv_of_isRest {s q r c : ℤ} (hs : s ≠ 0) (hr : IsRest s r) (hc : s * q + r = c) :
    c.fdiv s = q ∧ c.fmod s = r := by
  have hdiv := Int.fmod_add_mul_fdiv c s
  have hrest := isRest_fmod hs c
  have hq : c.fdiv s = q := by
    by_contra hne
    have hdiff : s * (c.fdiv s - q) = r - c.fmod s := by linarith
    rcases lt_or_gt_of_ne hne with hlt | hgt
    · rcases hr with hr | hr <;> rcases hrest with hrest | hrest <;> nlinarith
    · rcases hr with hr | hr <;> rcases hrest with hrest | hrest <;> nlinarith
  subst hq
  exact ⟨rfl, by linarith⟩

/-- The digit of the largest stride is the quotient. -/
theorem written_insert {free : Finset ℕ} {i : ℕ} (hs : (dimAt dims i).2 ≠ 0)
    (hlt : ∀ j ∈ free, (dimAt dims j).2 < (dimAt dims i).2) (c : ℤ) :
    (∃ digits, Written dims (insert i free) digits c) ↔
      (0 ≤ c.fdiv (dimAt dims i).2 ∧ c.fdiv (dimAt dims i).2 < (dimAt dims i).1) ∧
        ∃ digits, Written dims free digits (c.fmod (dimAt dims i).2) := by
  have hi : i ∉ free := fun hi => lt_irrefl _ (hlt i hi)
  have hbelow : (insert i free).filter (fun j => (dimAt dims j).2 < (dimAt dims i).2) = free := by
    rw [Finset.filter_insert, if_neg (lt_irrefl _), Finset.filter_true_of_mem hlt]
  have hsmaller : ∀ j ∈ free,
      (insert i free).filter (fun k => (dimAt dims k).2 < (dimAt dims j).2) =
        free.filter fun k => (dimAt dims k).2 < (dimAt dims j).2 := fun j hj => by
    rw [Finset.filter_insert, if_neg (hlt j hj).asymm]
  constructor
  · rintro ⟨digits, hbounds, hrest, htotal⟩
    have hrest_i := hrest i (Finset.mem_insert_self i free)
    rw [hbelow] at hrest_i
    rw [Finset.sum_insert hi] at htotal
    obtain ⟨hdiv, hmod⟩ := fdiv_of_isRest hs hrest_i htotal
    rw [hdiv, hmod]
    refine ⟨hbounds i (Finset.mem_insert_self i free), digits,
      fun j hj => hbounds j (Finset.mem_insert_of_mem hj), fun j hj => ?_, rfl⟩
    rw [← hsmaller j hj]
    exact hrest j (Finset.mem_insert_of_mem hj)
  · rintro ⟨hdigit, digits, hbounds, hrest, htotal⟩
    have hsame : ∀ s ⊆ free, ∑ j ∈ s, (dimAt dims j).2 *
        Function.update digits i (c.fdiv (dimAt dims i).2) j =
          ∑ j ∈ s, (dimAt dims j).2 * digits j := fun s hsub =>
      Finset.sum_congr rfl fun j hj => by
        rw [Function.update_of_ne (ne_of_mem_of_not_mem (hsub hj) hi)]
    refine ⟨Function.update digits i (c.fdiv (dimAt dims i).2), fun j hj => ?_, fun j hj => ?_, ?_⟩
    · rcases Finset.mem_insert.mp hj with rfl | hj
      · rwa [Function.update_self]
      · rw [Function.update_of_ne (ne_of_mem_of_not_mem hj hi)]
        exact hbounds j hj
    · rcases Finset.mem_insert.mp hj with rfl | hj
      · rw [hbelow, hsame free subset_rfl, htotal]
        exact isRest_fmod hs c
      · rw [hsmaller j hj, hsame _ (Finset.filter_subset _ _)]
        exact hrest j hj
    · rw [Finset.sum_insert hi, hsame free subset_rfl, Function.update_self, htotal, add_comm]
      exact Int.fmod_add_mul_fdiv c _

/-- The second loop leaves nothing exactly if the constant can be written. -/
theorem peel_ok_iff : ∀ {l : List ℕ} {f : ℕ → ℤ} {c : ℤ},
    l.Pairwise (fun i j => (dimAt dims j).2 < (dimAt dims i).2) →
    (∀ i ∈ l, (dimAt dims i).2 ≠ 0) →
    ((∃ st, foldE (peelDim dims) (f, c) l = .ok st ∧ st.2 = 0) ↔
      ∃ digits, Written dims l.toFinset digits c)
  | [], f, c, _, _ => by
    constructor
    · rintro ⟨st, hst, hzero⟩
      obtain rfl := Except.ok.inj hst
      exact ⟨0, by simp, by simp, by simpa using hzero.symm⟩
    · rintro ⟨digits, -, -, htotal⟩
      exact ⟨_, rfl, by simpa using htotal.symm⟩
  | i :: l, f, c, hl, hne => by
    obtain ⟨hlt, hl⟩ := pairwise_cons.mp hl
    rw [toFinset_cons, written_insert (hne i mem_cons_self) fun j hj => hlt j (mem_toFinset.mp hj),
      ← peel_ok_iff (f := Function.update f i (c.fdiv (dimAt dims i).2)) hl
        fun j hj => hne j (mem_cons_of_mem i hj)]
    constructor
    · rintro ⟨st, hst, hzero⟩
      obtain ⟨s, hs, hst⟩ := bind_eq_ok_iff.mp hst
      obtain ⟨_, hguard, hs⟩ := bind_eq_ok_iff.mp hs
      obtain rfl := Except.ok.inj hs
      exact ⟨guardE_eq_ok_iff.mp hguard, st, hst, hzero⟩
    · rintro ⟨hdigit, st, hst, hzero⟩
      refine ⟨st, bind_eq_ok_iff.mpr ⟨_, bind_eq_ok_iff.mpr ⟨(), ?_, rfl⟩, hst⟩, hzero⟩
      exact guardE_eq_ok_iff.mpr hdigit

/-- The digits and the residual keep the constant. -/
theorem peel_total {l : List ℕ} (hl : l.Nodup) (hlt : ∀ i ∈ l, i < dims.length) {c : ℤ}
    {st : (ℕ → ℤ) × ℤ} (h : foldE (peelDim dims) (0, c) l = .ok st) :
    st.2 + ∑ i ∈ Finset.range dims.length, (dimAt dims i).2 * st.1 i = c ∧
      ∀ i ∉ l, st.1 i = 0 := by
  refine foldE_inv (I := fun pre st => st.2 + ∑ i ∈ Finset.range dims.length,
    (dimAt dims i).2 * st.1 i = c ∧ ∀ i ∉ pre, st.1 i = 0) (fun pre i post s s' hsplit hI hs => ?_)
    ⟨by simp, fun _ _ => rfl⟩ h
  obtain ⟨hsum, hzero⟩ := hI
  obtain ⟨-, -, hs⟩ := bind_eq_ok_iff.mp hs
  obtain rfl := Except.ok.inj hs
  have hi : i ∉ pre := by
    rw [hsplit] at hl
    exact fun hmem => disjoint_of_nodup_append hl hmem mem_cons_self
  have hrange : i ∈ Finset.range dims.length :=
    Finset.mem_range.mpr (hlt i (hsplit ▸ mem_append_right _ mem_cons_self))
  have hterm : ∀ x, (dimAt dims x).2 * Function.update s.1 i (s.2.fdiv (dimAt dims i).2) x =
      (dimAt dims x).2 * s.1 x +
        if x = i then (dimAt dims i).2 * s.2.fdiv (dimAt dims i).2 else 0 := by
    intro x
    by_cases hx : x = i
    · subst hx
      simp [hzero x hi]
    · simp [hx]
  dsimp only
  refine ⟨?_, fun j hj => ?_⟩
  · rw [Finset.sum_congr rfl fun x _ => hterm x, Finset.sum_add_distrib, Finset.sum_ite_eq' _ i,
      if_pos hrange]
    linarith [Int.fmod_add_mul_fdiv s.2 (dimAt dims i).2]
  · simp only [mem_append, mem_singleton, not_or] at hj
    rw [Function.update_of_ne hj.2]
    exact hzero j hj.1

/-! ## The terms -/

/-- What is found, times the stride, is the term. -/
theorem stride_mul_foundTerm {stride : ℤ} {t u : ν × ℤ} (h : foundTerm stride t = some u) :
    u.1 = t.1 ∧ stride * u.2 = t.2 := by
  unfold foundTerm at h
  split_ifs at h with hone _ hneg _ hsame hopp
  all_goals
    obtain rfl := Option.some.inj h
    refine ⟨rfl, ?_⟩
    dsimp only
  · rw [hone]
    linarith
  · rw [hneg]
    linarith
  · linarith
  · linarith

/-- A stride finds the terms whose coefficient it takes. -/
theorem isSome_foundTerm {stride : ℤ} {t : ν × ℤ} :
    (foundTerm stride t).isSome ↔ Takes stride t.2 := by
  unfold foundTerm Takes
  split_ifs <;> simp <;> omega

theorem foundTerm_eq_none {stride : ℤ} {t : ν × ℤ} :
    foundTerm stride t = none ↔ ¬Takes stride t.2 := by
  rw [← isSome_foundTerm, Option.not_isSome_iff_eq_none]

/-- The part of a dimension in the symbolic terms. -/
theorem stride_mul_dimCoord (terms : List (ν × ℤ)) (pt : ν → ℤ) (i : ℕ) :
    (dimAt dims i).2 * ((dimCoord dims terms i).elim 0 (DimCoord.eval pt)) =
      (terms.map fun t =>
        if Keyed dims i ∧ Takes (dimAt dims i).2 t.2 then t.2 * pt t.1 else 0).sum := by
  unfold dimCoord
  by_cases hk : Keyed dims i
  · have hsum : (dimAt dims i).2 *
        ((terms.filterMap (foundTerm (dimAt dims i).2)).map fun t => t.2 * pt t.1).sum =
          (terms.map fun t =>
            if Keyed dims i ∧ Takes (dimAt dims i).2 t.2 then t.2 * pt t.1 else 0).sum := by
      induction terms with
      | nil => simp
      | cons t terms ih =>
        rw [map_cons, sum_cons, ← ih]
        cases hfound : foundTerm (dimAt dims i).2 t with
        | none => simp [hfound, foundTerm_eq_none.mp hfound]
        | some u =>
          obtain ⟨hvar, hmul⟩ := stride_mul_foundTerm hfound
          have htakes : Takes (dimAt dims i).2 t.2 := isSome_foundTerm.mp (by rw [hfound]; rfl)
          simp only [filterMap_cons_some hfound, map_cons, sum_cons, mul_add,
            if_pos (And.intro hk htakes), hvar, ← mul_assoc, hmul]
    rw [if_pos hk, ← hsum]
    split_ifs with hnil
    · simp [hnil]
    · rfl
  · simp [hk, DimCoord.eval]

theorem sum_range_list {n : ℕ} (f : ℕ → ν × ℤ → ℤ) (terms : List (ν × ℤ)) :
    ∑ i ∈ Finset.range n, (terms.map (f i)).sum =
      (terms.map fun t => ∑ i ∈ Finset.range n, f i t).sum := by
  induction terms with
  | nil => simp
  | cons t terms ih => simp [Finset.sum_add_distrib, ih]

/-- Every term counts once for each dimension that gets it. -/
theorem sum_dimCoord (terms : List (ν × ℤ)) (pt : ν → ℤ) :
    ∑ i ∈ Finset.range dims.length,
        (dimAt dims i).2 * ((dimCoord dims terms i).elim 0 (DimCoord.eval pt)) =
      (terms.map fun t => ((takers dims t.2).card : ℤ) * (t.2 * pt t.1)).sum := by
  rw [Finset.sum_congr rfl fun i _ => stride_mul_dimCoord terms pt i, sum_range_list]
  refine congrArg List.sum (map_congr_left fun t _ => ?_)
  rw [← Finset.sum_filter, Finset.sum_const, nsmul_eq_mul, takers]

/-- What the coordinates add up to. -/
theorem sum_delinearizeIndex {index : LinearIndex ν} {offset : ℤ} {coords : List (DimCoord ν)}
    (h : delinearizeIndex dims index offset = .ok coords) (pt : ν → ℤ) :
    ∑ i ∈ Finset.range dims.length, (dimAt dims i).2 * (coords.getD i (.digit 0)).eval pt + offset =
      index.constant +
        (index.terms.map fun t => ((takers dims t.2).card : ℤ) * (t.2 * pt t.1)).sum := by
  obtain ⟨-, -, h⟩ := bind_eq_ok_iff.mp h
  obtain ⟨st, hfold, h⟩ := bind_eq_ok_iff.mp h
  obtain ⟨_, hzero, h⟩ := bind_eq_ok_iff.mp h
  obtain rfl := Except.ok.inj h
  have hmem : ∀ i, i ∈ (constDims dims index.terms).insertionSort (fun i j =>
      (dimAt dims j).2 ≤ (dimAt dims i).2) ↔ i ∈ constDims dims index.terms := fun i =>
    mem_insertionSort _
  have hnodup : (constDims dims index.terms).Nodup := nodup_range.filter _
  obtain ⟨htotal, hnot⟩ := peel_total ((perm_insertionSort _ _).nodup_iff.mpr hnodup)
    (fun i hi => mem_range.mp (mem_of_mem_filter ((hmem i).mp hi))) hfold
  rw [guardE_eq_ok_iff.mp hzero, zero_add] at htotal
  rw [← sum_dimCoord, eq_add_of_sub_eq htotal.symm, add_right_comm, ← Finset.sum_add_distrib]
  refine congrArg (· + offset) (Finset.sum_congr rfl fun i hi => ?_)
  have hi := Finset.mem_range.mp hi
  rw [← mul_add]
  congr 1
  cases hc : dimCoord dims index.terms i with
  | none => simp [hi, hc, DimCoord.eval]
  | some c =>
    have hconst : i ∉ constDims dims index.terms := by
      simp [constDims, hc]
    simp [hi, hc, hnot i ((hmem i).not.mpr hconst)]

theorem mem_constDims {terms : List (ν × ℤ)} {i : ℕ} :
    i ∈ constDims dims terms ↔ i ∈ openDims dims terms := by
  have hnil : terms.filterMap (foundTerm (dimAt dims i).2) = [] ↔
      ∀ t ∈ terms, ¬Takes (dimAt dims i).2 t.2 := by
    simp only [filterMap_eq_nil_iff, foundTerm_eq_none]
  rw [constDims, openDims, mem_filter, Finset.mem_filter, List.mem_range, Finset.mem_range,
    ← hnil, dimCoord]
  split_ifs with hk hempty
  · simp [hk, hempty]
  · simp [hk, hempty]
  · simp [hk]

/-- The code returns exactly if no stride is shared and the constant can be written. -/
theorem delinearizeIndex_ok_iff {index : LinearIndex ν} {offset : ℤ} :
    (∃ coords, delinearizeIndex dims index offset = .ok coords) ↔
      ¬SharedStride dims ∧
        ∃ digits, Written dims (openDims dims index.terms) digits (index.constant - offset) := by
  have hcheck : checkAll (checkStride dims) (List.range dims.length) = .ok () ↔
      ¬SharedStride dims := by
    simp only [checkAll_eq_ok_iff, checkStride, guardE_eq_ok_iff, SharedStride, List.mem_range,
      not_exists, not_and]
  set sorted := (constDims dims index.terms).insertionSort fun i j =>
    (dimAt dims j).2 ≤ (dimAt dims i).2
  have hmem : ∀ i, i ∈ sorted ↔ i ∈ openDims dims index.terms := fun i =>
    (mem_insertionSort _).trans mem_constDims
  have hset : sorted.toFinset = openDims dims index.terms := by
    ext i
    rw [mem_toFinset, hmem]
  have hkeyed : ∀ i ∈ sorted, i < dims.length ∧ Keyed dims i := by
    intro i hi
    obtain ⟨hlt, hk, -⟩ := Finset.mem_filter.mp ((hmem i).mp hi)
    exact ⟨Finset.mem_range.mp hlt, hk⟩
  -- strides that differ are sorted strictly
  have hpair : ¬SharedStride dims →
      sorted.Pairwise fun i j => (dimAt dims j).2 < (dimAt dims i).2 := by
    intro hshared
    have hle : sorted.Pairwise fun i j => (dimAt dims j).2 ≤ (dimAt dims i).2 :=
      pairwise_insertionSort _ _
    have hnodup : sorted.Nodup :=
      (perm_insertionSort _ _).nodup_iff.mpr (nodup_range.filter _)
    refine (hle.and hnodup).imp_of_mem fun {i j} hi hj hij => lt_of_le_of_ne hij.1 fun heq => ?_
    rcases lt_or_gt_of_ne hij.2 with hlt | hlt
    · exact hshared ⟨j, (hkeyed j hj).1, (hkeyed j hj).2, i, hlt, (hkeyed i hi).2, heq.symm⟩
    · exact hshared ⟨i, (hkeyed i hi).1, (hkeyed i hi).2, j, hlt, (hkeyed j hj).2, heq⟩
  constructor
  · rintro ⟨coords, h⟩
    obtain ⟨_, hok, h⟩ := bind_eq_ok_iff.mp h
    obtain ⟨st, hfold, h⟩ := bind_eq_ok_iff.mp h
    obtain ⟨_, hzero, -⟩ := bind_eq_ok_iff.mp h
    have hshared := hcheck.mp hok
    refine ⟨hshared, hset ▸ (peel_ok_iff (f := 0) (hpair hshared)
      fun i hi => (hkeyed i hi).2.2).mp ⟨st, hfold, guardE_eq_ok_iff.mp hzero⟩⟩
  · rintro ⟨hshared, hwritten⟩
    obtain ⟨st, hfold, hzero⟩ := (peel_ok_iff (f := 0) (hpair hshared)
      fun i hi => (hkeyed i hi).2.2).mpr (hset ▸ hwritten)
    exact ⟨_, bind_eq_ok_iff.mpr ⟨(), hcheck.mpr hshared, bind_eq_ok_iff.mpr ⟨st, hfold,
      bind_eq_ok_iff.mpr ⟨(), guardE_eq_ok_iff.mpr hzero, rfl⟩⟩⟩⟩

end Layout

/-- A sum of multiples of different variables, at the point that is one for `t` alone. -/
theorem sum_single [DecidableEq ν] {terms : List (ν × ℤ)} (hnodup : (terms.map Prod.fst).Nodup)
    {t : ν × ℤ} (ht : t ∈ terms) (f : ν × ℤ → ℤ) :
    (terms.map fun u => f u * if u.1 = t.1 then 1 else 0).sum = f t := by
  rw [Lists.sum_map_single hnodup ht fun u _ hne => by rw [if_neg hne, mul_zero], if_pos rfl,
    mul_one]

/-- The code raises or inverts the index exactly if two dimensions share a stride, the constant
cannot be written over the dimensions that take no term, or each term is taken by exactly one
dimension. -/
theorem delinearizeIndex_inverts_iff (dims : List (ℕ × ℤ)) (index : LinearIndex ν) (offset : ℤ) :
    (∀ coords, delinearizeIndex dims index offset = .ok coords → ∀ pt : ν → ℤ,
      ∑ i ∈ Finset.range dims.length, (dimAt dims i).2 * (coords.getD i (.digit 0)).eval pt +
        offset = index.eval pt) ↔
      SharedStride dims ∨
        (¬∃ digits, Written dims (openDims dims index.terms) digits (index.constant - offset)) ∨
        ∀ t ∈ index.terms, (takers dims t.2).card = 1 := by
  classical
  by_cases hok : ∃ coords, delinearizeIndex dims index offset = .ok coords
  · obtain ⟨hshared, hwritten⟩ := delinearizeIndex_ok_iff.mp hok
    obtain ⟨coords, hrun⟩ := hok
    have hsum := sum_delinearizeIndex hrun
    simp only [hrun, Except.ok.injEq, forall_eq', hshared, hwritten, not_true_eq_false, false_or,
      hsum, LinearIndex.eval, add_right_inj]
    constructor
    · intro h t ht
      have hpt := h fun v => if v = t.1 then 1 else 0
      simp only [← mul_assoc] at hpt
      rw [sum_single index.nodup ht fun u => ((takers dims u.2).card : ℤ) * u.2,
        sum_single index.nodup ht Prod.snd] at hpt
      exact_mod_cast mul_right_cancel₀ (index.ne_zero t ht) (hpt.trans (one_mul _).symm)
    · intro h pt
      refine congrArg List.sum (map_congr_left fun t ht => ?_)
      rw [h t ht, Nat.cast_one, one_mul]
  · have hraises : SharedStride dims ∨
        ¬∃ digits, Written dims (openDims dims index.terms) digits (index.constant - offset) := by
      by_contra hnot
      push Not at hnot
      exact hok (delinearizeIndex_ok_iff.mpr hnot)
    exact iff_of_true (fun coords hrun => absurd ⟨coords, hrun⟩ hok)
      (hraises.imp_right Or.inl)

/-- The index `24 * d`. -/
def doubled : LinearIndex Unit :=
  ⟨0, [((), 24)], by decide, by decide⟩

/-- Over a stride of twelve the variable of `24 * d` is lost. -/
theorem delinearizeIndex_doubled :
    delinearizeIndex [(4, 12)] doubled 0 = .ok [.digit 0] ∧
      (12 : ℤ) * (DimCoord.digit 0 : DimCoord Unit).eval 1 + 0 ≠ doubled.eval 1 := by
  decide +kernel

end Delinearize

end TorchSpyre
