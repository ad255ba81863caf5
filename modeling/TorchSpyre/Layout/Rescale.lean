import Mathlib
import TorchSpyre.Layout.TileCompose

/-!
# Rescaled indexes

`_rescale_index` in `wsr/loop_tiling_common.py`. The terms of an affine index are matched with the
dimensions of a layout by the values of their strides, the largest stride first, and each gets the
tile stride of its match instead. Strides are numbers here, and a term is a multiple of one loop
variable.

The sort is stable, so of the dimensions with one stride the first one in the layout is matched
(`find?_sorted`). The dimensions of size above one have different strides, but a dimension of size
one may have the stride of a larger one. If it comes first it takes the term of the larger one,
and its tile stride is zero (`rescaleIndex_iff`).
-/

open List

namespace TorchSpyre

open Checked Strided

/-! ## The matching -/

section Matching

variable {ν : Type}

/-- An affine index : a number, and the multiples of loop variables added to it. -/
structure AffineIndex (ν : Type) where
  constant : ℤ
  terms : List (ℕ × ν)
deriving DecidableEq

/-- What `_rescale_index` raises. -/
inductive RescaleError (ν : Type) where
  | noMatchingStride (term : ℕ × ν) (index : AffineIndex ν) (fullStrides : List ℕ)
  | ambiguousStride (term : ℕ × ν) (index : AffineIndex ν) (fullStrides : List ℕ)
deriving DecidableEq

/-- `_divides_evenly`, for a term with this coefficient. -/
def dividesEvenly (coeff fullStride : ℕ) : Bool :=
  fullStride ≠ 0 ∧ (coeff : ℚ) / fullStride = 1

/-- The body of the loop over the terms. The state has the strides that are not matched yet, each
with its tile stride, and the new terms. -/
def rescaleTerm (index : AffineIndex ν) (fullStrides : List ℕ) (rejectAmbiguous : Bool)
    (st : List (ℕ × ℕ) × List (ℕ × ν)) (term : ℕ × ν) :
    Except (RescaleError ν) (List (ℕ × ℕ) × List (ℕ × ν)) :=
  match st.1.find? (dividesEvenly term.1 ·.1) with
  | none => .error (.noMatchingStride term index fullStrides)
  | some first => do
    guardE (¬(rejectAmbiguous ∧ ∃ p ∈ st.1, dividesEvenly term.1 p.1 ∧ p.2 ≠ first.2))
      (.ambiguousStride term index fullStrides)
    return (st.1.eraseP (dividesEvenly term.1 ·.1), st.2 ++ [(first.2, term.2)])

/-- `_rescale_index`. -/
def rescaleIndex (index : AffineIndex ν) (fullStrides tileStrides : List ℕ)
    (stripConstant rejectAmbiguous : Bool) : Except (RescaleError ν) (AffineIndex ν) := do
  let remaining := (fullStrides.zip tileStrides).insertionSort fun p q => q.1 ≤ p.1
  let st ← foldE (rescaleTerm index fullStrides rejectAmbiguous) (remaining, []) index.terms
  return ⟨if stripConstant then 0 else index.constant, st.2⟩

theorem dividesEvenly_iff {coeff fullStride : ℕ} :
    dividesEvenly coeff fullStride = true ↔ fullStride ≠ 0 ∧ coeff = fullStride := by
  rw [dividesEvenly, decide_eq_true_eq]
  refine and_congr_right fun hne => ?_
  rw [div_eq_one_iff_eq (Nat.cast_ne_zero.mpr hne), Nat.cast_inj]

/-- The pairs with one stride are in the order they had before the sort. -/
theorem find?_sorted (pairs : List (ℕ × ℕ)) (coeff : ℕ) :
    (pairs.insertionSort fun p q => q.1 ≤ p.1).find? (dividesEvenly coeff ·.1) =
      pairs.find? (dividesEvenly coeff ·.1) := by
  have hpairwise : (pairs.filter (dividesEvenly coeff ·.1)).Pairwise fun p q => q.1 ≤ p.1 := by
    refine pairwise_of_forall_mem_list fun p hp q hq => ?_
    rw [← (dividesEvenly_iff.mp (mem_filter.mp hp).2).2,
      ← (dividesEvenly_iff.mp (mem_filter.mp hq).2).2]
  have hsub := (sublist_insertionSort hpairwise filter_sublist).filter
    (dividesEvenly coeff ·.1)
  rw [filter_filter, filter_congr fun _ _ => Bool.and_self _] at hsub
  rw [← head?_filter, ← head?_filter,
    hsub.eq_of_length ((perm_insertionSort _ _).filter _).length_eq.symm]

theorem find?_eraseP {α : Type} {p q : α → Bool} (hpq : ∀ x, p x = true → q x = false) :
    ∀ l : List α, (l.eraseP p).find? q = l.find? q
  | [] => rfl
  | x :: l => by
    cases hx : p x with
    | true => rw [eraseP_cons_of_pos hx, find?_cons_of_neg (by simp [hpq x hx])]
    | false =>
      rw [eraseP_cons_of_neg (by simp [hx])]
      simp only [find?_cons, find?_eraseP hpq l]

/-- The tile stride of the first dimension with this stride. -/
def firstTile (pairs : List (ℕ × ℕ)) (coeff : ℕ) : ℕ :=
  ((pairs.find? (dividesEvenly coeff ·.1)).map Prod.snd).getD 0

/-- Terms with different coefficients are matched as if each were alone. -/
theorem rescaleIndex_eq {index : AffineIndex ν} {fullStrides tileStrides : List ℕ}
    (hdistinct : (index.terms.map Prod.fst).Nodup)
    (hmatch : ∀ t ∈ index.terms,
      ((fullStrides.zip tileStrides).find? (dividesEvenly t.1 ·.1)).isSome) :
    rescaleIndex index fullStrides tileStrides false false =
      .ok ⟨index.constant, index.terms.map fun t =>
        (firstTile (fullStrides.zip tileStrides) t.1, t.2)⟩ := by
  let pairs := fullStrides.zip tileStrides
  obtain ⟨st, hrun, -, hterms⟩ := foldE_ok
    (f := rescaleTerm index fullStrides false)
    (I := fun done (st : List (ℕ × ℕ) × List (ℕ × ν)) =>
      (∀ coeff, coeff ∉ done.map Prod.fst →
        st.1.find? (dividesEvenly coeff ·.1) = pairs.find? (dividesEvenly coeff ·.1)) ∧
      st.2 = done.map fun t => (firstTile pairs t.1, t.2))
    (l := index.terms) (s := (pairs.insertionSort fun p q => q.1 ≤ p.1, []))
    (fun pre t post st hsplit hst => by
      obtain ⟨hfind, hout⟩ := hst
      have ht : t.1 ∉ pre.map Prod.fst := by
        rw [hsplit, map_append, map_cons, nodup_middle, nodup_cons] at hdistinct
        exact fun hmem => hdistinct.1 (mem_append_left _ hmem)
      obtain ⟨first, hfirst⟩ := Option.isSome_iff_exists.mp (hmatch t (by simp [hsplit]))
      have hstep : st.1.find? (dividesEvenly t.1 ·.1) = some first := (hfind _ ht).trans hfirst
      refine ⟨(st.1.eraseP (dividesEvenly t.1 ·.1), st.2 ++ [(first.2, t.2)]), ?_, ?_, ?_⟩
      · simp [rescaleTerm, hstep, guardE]
      · intro coeff hcoeff
        rw [map_append, mem_append, not_or] at hcoeff
        rw [find?_eraseP, hfind coeff hcoeff.1]
        intro p hp
        rw [← Bool.not_eq_true, dividesEvenly_iff]
        rintro ⟨-, rfl⟩
        exact hcoeff.2 (by simp [(dividesEvenly_iff.mp hp).2])
      · have htile : firstTile pairs t.1 = first.2 := by rw [firstTile, hfirst]; rfl
        rw [hout, map_append, map_singleton, htile])
    ⟨fun coeff _ => find?_sorted pairs coeff, rfl⟩
  rw [rescaleIndex, bind_eq_ok_iff]
  exact ⟨st, hrun, by rw [hterms]; rfl⟩

end Matching

/-! ## Layouts without overlap -/

section Layouts

variable {size stride tileSize : List ℕ} {d : ℕ}

/-- Two dimensions of size above one have different strides. -/
theorem Separate.stride_ne (h : Separate size stride) (hd : d < size.length) {e : ℕ}
    (he : e < size.length) (hde : d ≠ e) (hdsize : size.getD d 0 ≠ 1)
    (hesize : size.getD e 0 ≠ 1) : stride.getD d 0 ≠ stride.getD e 0 := by
  intro heq
  have hcoords := h.distinct (h.unit_mem hdsize) (h.unit_mem hesize)
    (by rw [h.linearOffset_unit hd, h.linearOffset_unit he, heq])
  have hget := congrArg (·.getD d 0) hcoords
  simp [hd, Ne.symm hde] at hget

variable (h : Separate size stride) (htile : Accepted size stride tileSize)
include h htile

theorem length_pairs : (stride.zip (tileStrides size stride tileSize)).length = size.length := by
  simp [tileStrides, htile.length_eq, h.length_eq]

theorem getElem_pairs {e : ℕ} (he : e < (stride.zip (tileStrides size stride tileSize)).length) :
    (stride.zip (tileStrides size stride tileSize))[e] =
      (stride.getD e 0, tileStrideAt size stride tileSize (outerDims size stride) e) := by
  have hsize : e < size.length := length_pairs h htile ▸ he
  rw [getElem_zip, ← tileStrides_getD htile.length_eq hsize, getD_eq_getElem, getD_eq_getElem]

/-- The term of a dimension is matched with the first dimension that has its stride. -/
theorem find?_pairs (hd : d < size.length) (hsize : size.getD d 0 ≠ 1) :
    ∃ e ≤ d, stride.getD e 0 = stride.getD d 0 ∧
      (∀ e' < e, stride.getD e' 0 ≠ stride.getD d 0) ∧
      (stride.zip (tileStrides size stride tileSize)).find?
        (dividesEvenly (stride.getD d 0) ·.1) =
          some (stride.getD e 0,
            tileStrideAt size stride tileSize (outerDims size stride) e) := by
  have hex : ∃ e, stride.getD e 0 = stride.getD d 0 := ⟨d, rfl⟩
  have hle : Nat.find hex ≤ d := Nat.find_min' hex rfl
  have hlt : Nat.find hex < (stride.zip (tileStrides size stride tileSize)).length := by
    rw [length_pairs h htile]
    omega
  refine ⟨Nat.find hex, hle, Nat.find_spec hex, fun e' he' => Nat.find_min hex he', ?_⟩
  rw [find?_eq_some_iff_getElem]
  refine ⟨?_, Nat.find hex, hlt, getElem_pairs h htile hlt, fun e' he' => ?_⟩
  · have hne := h.stride_ne_zero hd hsize
    rw [← Nat.find_spec hex] at hne
    exact dividesEvenly_iff.mpr ⟨hne, (Nat.find_spec hex).symm⟩
  · rw [getElem_pairs h htile (he'.trans hlt), Bool.not_eq_true', ← Bool.not_eq_true,
      dividesEvenly_iff]
    exact fun hmatch => Nat.find_min hex he' hmatch.2.symm

/-- A dimension gets its own tile stride unless a dimension of size one takes its term. -/
theorem firstTile_eq_iff (hd : d < size.length) (hsize : size.getD d 0 ≠ 1) :
    firstTile (stride.zip (tileStrides size stride tileSize)) (stride.getD d 0) =
        (tileStrides size stride tileSize).getD d 0 ↔
      (1 < tileSize.getD d 0 → ∀ e < d, size.getD e 0 = 1 → stride.getD e 0 ≠ stride.getD d 0) := by
  obtain ⟨e, hle, heq, hmin, hfind⟩ := find?_pairs h htile hd hsize
  have hregular := h.mem_outerDims hd hsize
  rw [firstTile, hfind, tileStrides_getD htile.length_eq hd]
  rcases hle.eq_or_lt with rfl | hlt
  · exact iff_of_true rfl fun _ e' he' _ => hmin e' he'
  · have hone : size.getD e 0 = 1 := by
      by_contra hne
      exact h.stride_ne (hlt.trans hd) hd hlt.ne hne hsize heq
    have hirregular : e ∉ outerDims size stride := fun hmem => by
      rw [outerDims, mem_reverse, mem_regularDims] at hmem
      exact hmem.2.1 hone
    have hzero : tileStrideAt size stride tileSize (outerDims size stride) e = 0 :=
      if_neg fun hmem => hirregular hmem.1
    simp only [Option.map_some, Option.getD_some, hzero]
    constructor
    · intro hstolen hbig
      rw [tileStrideAt, if_pos ⟨hregular, hbig⟩] at hstolen
      have hdvd := htile.weights d hregular
      exact absurd (Nat.eq_zero_of_dvd_of_div_eq_zero hdvd hstolen.symm) (h.stride_ne_zero hd hsize)
    · intro hfree
      rw [tileStrideAt, if_neg fun hmem => hfree hmem.2 e hlt hone heq]

end Layouts

/-- On an index with the term of each dimension of size above one, every variable gets the tile
stride of its dimension exactly when no dimension of size one comes before a larger dimension that
has the same stride and is not cut down to size one. -/
theorem rescaleIndex_iff {ν : Type} (size stride tileSize ts : List ℕ) (h : Separate size stride)
    (hlen : tileSize.length = size.length) (hts : computeTileStride size stride tileSize = .ok ts)
    (constant : ℤ) (dims : List ℕ) (hdims : dims.Perm
      ((List.range size.length).filter fun d => 1 < size.getD d 0)) (var : ℕ → ν) :
    ((∃ e, rescaleIndex ⟨constant, dims.map fun d => (stride.getD d 0, var d)⟩ stride ts false
          false = .error e) ∨
        rescaleIndex ⟨constant, dims.map fun d => (stride.getD d 0, var d)⟩ stride ts false false =
          .ok ⟨constant, dims.map fun d => (ts.getD d 0, var d)⟩) ↔
      ∀ d < size.length, 1 < tileSize.getD d 0 → ∀ e < d, size.getD e 0 = 1 →
        stride.getD e 0 ≠ stride.getD d 0 := by
  obtain ⟨htile, rfl⟩ := (computeTileStride_iff hlen).mp hts
  have hmem : ∀ d, d ∈ dims ↔ d < size.length ∧ size.getD d 0 ≠ 1 := fun d => by
    rw [hdims.mem_iff, mem_filter, mem_range, decide_eq_true_eq]
    refine and_congr_right fun hd => ?_
    have := h.getD_pos hd
    omega
  rw [rescaleIndex_eq]
  · simp only [reduceCtorEq, exists_false, false_or, Except.ok.injEq, AffineIndex.mk.injEq,
      true_and, map_map, map_inj_left, Function.comp, Prod.mk.injEq, and_true]
    constructor
    · intro hown d hd hbig
      have hsize : size.getD d 0 ≠ 1 := fun hone => by
        have := Nat.le_of_dvd Nat.one_pos (hone ▸ htile.dvd d hd)
        omega
      exact (firstTile_eq_iff h htile hd hsize).mp (hown d ((hmem d).mpr ⟨hd, hsize⟩)) hbig
    · intro hfree d hd
      obtain ⟨hd, hsize⟩ := (hmem d).mp hd
      exact (firstTile_eq_iff h htile hd hsize).mpr (hfree d hd)
  · rw [map_map]
    refine List.Nodup.map_on (fun d hd e he heq => ?_)
      (hdims.nodup_iff.mpr (nodup_range.filter _))
    obtain ⟨hd, hdsize⟩ := (hmem d).mp hd
    obtain ⟨he, hesize⟩ := (hmem e).mp he
    by_contra hde
    exact h.stride_ne hd he hde hdsize hesize heq
  · intro t ht
    obtain ⟨d, hd, rfl⟩ := mem_map.mp ht
    obtain ⟨hd, hsize⟩ := (hmem d).mp hd
    obtain ⟨e, -, -, -, hfind⟩ := find?_pairs h htile hd hsize
    exact Option.isSome_iff_exists.mpr ⟨_, hfind⟩

/-- Four elements in a row, whatever the distance of the rows. -/
theorem separate_row (gap : ℕ) : Separate [1, 4] [gap, 1] where
  length_eq := rfl
  size_pos := by decide
  distinct := by
    intro x hx y hy heq
    obtain _ | ⟨ha, _ | ⟨-, _ | _⟩⟩ := hx
    obtain _ | ⟨hb, _ | ⟨-, _ | _⟩⟩ := hy
    obtain ⟨rfl, rfl⟩ := And.intro (Nat.lt_one_iff.mp ha) (Nat.lt_one_iff.mp hb)
    simpa [linearOffset] using heq

theorem rescaleIndex_iff_row :
    (∃ e, rescaleIndex ⟨0, [(1, "d1")]⟩ [4, 1] [0, 1] false false = .error e) ∨
      rescaleIndex ⟨0, [(1, "d1")]⟩ [4, 1] [0, 1] false false = .ok ⟨0, [(1, "d1")]⟩ :=
  (rescaleIndex_iff [1, 4] [4, 1] [1, 2] [0, 1] (separate_row 4) rfl rfl 0 [1] (.refl _)
    fun _ => "d1").mpr (by decide)

/-- A row of a transposed column : the dimension of size one comes first and has stride one. -/
theorem rescaleIndex_column : Separate [1, 4] [1, 1] ∧
    computeTileStride [1, 4] [1, 1] [1, 2] = .ok [0, 1] ∧
    rescaleIndex ⟨0, [(1, "d1")]⟩ [1, 1] [0, 1] false false = .ok ⟨0, [(0, "d1")]⟩ :=
  ⟨separate_row 1, rfl, by decide +kernel⟩

end TorchSpyre
