import Mathlib
import TorchSpyre.Contiguous
import TorchSpyre.Layout.TileStride

/-!
# Tiles of padded tensors

`compute_tile_stride` on a tensor whose dimensions are nested with gaps : each stride is at least
what the dimension before spans. The strides it returns are the strides of the tensor, each divided
by the number of tiles in the dimensions inside (`computeTileStride_eq_ok_iff`), so the tiles are
nested in the same way (`Strided.Cut`). Distinct elements of a tile stay apart, and the tile takes
no more than its share of the tensor.

A tile of a tile has the strides of the tile cut at once. The other way around, a dimension that
the first tiling cuts down to size one is not looked at by the second, and its stride may not be
divisible by the counts of both.
-/

open List

namespace TorchSpyre

open Checked Strided

/-! ## Offsets -/

/-- The offset of an element. -/
def linearOffset (stride coords : List ℕ) : ℕ :=
  (zipWith (· * ·) coords stride).sum

/-- The coordinates of a tensor. -/
def coordinates (size : List ℕ) : Set (List ℕ) :=
  {x | List.Forall₂ (· < ·) x size}

/-- One more than the largest offset. -/
def tensorExtent (size stride : List ℕ) : ℕ :=
  linearOffset stride (size.map (· - 1)) + 1

/-- The number of tiles. -/
def tileCount (size tileSize : List ℕ) : ℕ :=
  (zipWith (· / ·) size tileSize).prod

/-- A tensor without overlap. -/
structure Separate (size stride : List ℕ) : Prop where
  length_eq : stride.length = size.length
  size_pos : ∀ s ∈ size, 0 < s
  distinct : Set.InjOn (linearOffset stride) (coordinates size)

/-- A tensor without overlap whose regular dimensions are nested. -/
structure NestedTensor (size stride : List ℕ) : Prop extends Separate size stride where
  nested : (regularDims size stride).IsChain fun d e =>
    stride.getD d 0 * size.getD d 0 ≤ stride.getD e 0

/-! ## Tiles of a nested tensor -/

section Tiles

variable {size stride tileSize ts : List ℕ}

theorem linearOffset_eq_sum {coords : List ℕ} (hlen : coords.length = stride.length) :
    linearOffset stride coords =
      ∑ d ∈ Finset.range stride.length, coords.getD d 0 * stride.getD d 0 := by
  induction stride generalizing coords with
  | nil =>
    rw [length_nil, length_eq_zero_iff] at hlen
    subst hlen
    rfl
  | cons t stride ih =>
    obtain ⟨c, coords, rfl⟩ := exists_cons_of_length_eq_add_one hlen
    rw [linearOffset, zipWith_cons_cons, sum_cons, length_cons,
      Finset.sum_range_succ', Nat.add_comm]
    exact congrArg₂ _ (ih (Nat.succ.inj hlen)) rfl

theorem tileCount_eq_prod (hlen : tileSize.length = size.length) :
    tileCount size tileSize = ∏ d ∈ Finset.range size.length, countAt size tileSize d := by
  induction size generalizing tileSize with
  | nil => rfl
  | cons s size ih =>
    obtain ⟨t, tileSize, rfl⟩ := exists_cons_of_length_eq_add_one hlen
    rw [tileCount, zipWith_cons_cons, prod_cons, length_cons, Finset.prod_range_succ', Nat.mul_comm]
    exact congrArg₂ _ (ih (Nat.succ.inj hlen)) rfl

theorem mem_coordinates {x : List ℕ} : x ∈ coordinates size ↔
    x.length = size.length ∧ ∀ d < size.length, x.getD d 0 < size.getD d 0 := by
  show List.Forall₂ (· < ·) x size ↔ _
  rw [forall₂_iff_get]
  refine and_congr_right fun hlen => ⟨fun h d hd => ?_, fun h d hx hd => ?_⟩
  · have hx : d < x.length := hlen ▸ hd
    rw [getD_eq_getElem _ _ hd, getD_eq_getElem _ _ hx]
    exact h d hx hd
  · have hlt := h d hd
    rwa [getD_eq_getElem _ _ hd, getD_eq_getElem _ _ hx] at hlt

variable {d : ℕ} {f : ℕ → ℕ}

namespace Separate

variable (h : Separate size stride) (hd : d < size.length)
include h hd

theorem getD_pos : 0 < size.getD d 0 := by
  rw [getD_eq_getElem _ _ hd]
  exact h.size_pos _ (getElem_mem hd)

omit hd in
theorem zero_mem : replicate size.length 0 ∈ coordinates size :=
  mem_coordinates.mpr ⟨by simp, fun e he => by simpa [he] using h.getD_pos he⟩

omit hd in
theorem unit_mem (hsize : size.getD d 0 ≠ 1) :
    (replicate size.length 0).set d 1 ∈ coordinates size := by
  refine mem_coordinates.mpr ⟨by simp, fun e he => ?_⟩
  have hpos := h.getD_pos he
  by_cases hde : d = e
  · subst hde
    rw [getD_eq_getElem _ _ (by simpa using he), getElem_set_self]
    omega
  · rw [getD_eq_getElem _ _ (by simpa using he), getElem_set_ne hde]
    simpa using hpos

/-- The stride of a dimension is the offset of its unit coordinate. -/
theorem linearOffset_unit :
    linearOffset stride ((replicate size.length 0).set d 1) = stride.getD d 0 := by
  rw [linearOffset_eq_sum (by simp [h.length_eq]), Finset.sum_eq_single d]
  · simp [hd]
  · exact fun e _ hed => by simp [Ne.symm hed]
  · exact fun hout => absurd (Finset.mem_range.mpr (h.length_eq ▸ hd)) hout

theorem stride_ne_zero (hsize : size.getD d 0 ≠ 1) : stride.getD d 0 ≠ 0 := by
  intro hzero
  have hoffset : linearOffset stride (replicate size.length 0) = 0 := by
    rw [linearOffset_eq_sum (by simp [h.length_eq])]
    simp
  have hcoords := h.distinct h.zero_mem (h.unit_mem hsize)
    (by rw [hoffset, h.linearOffset_unit hd, hzero])
  have hget := congrArg (·.getD d 0) hcoords
  simp [hd] at hget

theorem mem_outerDims (hsize : size.getD d 0 ≠ 1) : d ∈ outerDims size stride := by
  rw [outerDims, mem_reverse, mem_regularDims]
  exact ⟨⟨hd, h.length_eq ▸ hd⟩, hsize, h.stride_ne_zero hd hsize⟩

end Separate

theorem NestedTensor.getD_pos (h : NestedTensor size stride) (hd : d < size.length) :
    0 < size.getD d 0 :=
  h.toSeparate.getD_pos hd

/-- A dimension that is not regular has size one. -/
theorem NestedTensor.size_eq_one (h : NestedTensor size stride) (hd : d < size.length)
    (hirregular : d ∉ outerDims size stride) : size.getD d 0 = 1 := by
  by_contra hsize
  exact hirregular (h.toSeparate.mem_outerDims hd hsize)

/-- What `compute_tile_stride` accepts. -/
structure Accepted (size stride tileSize : List ℕ) : Prop where
  length_eq : tileSize.length = size.length
  dvd : ∀ d < size.length, tileSize.getD d 0 ∣ size.getD d 0
  weights : ∀ d ∈ outerDims size stride,
    weight (countAt size tileSize) (outerDims size stride) d ∣ stride.getD d 0

/-- The strides of an accepted tile list. -/
def tileStrides (size stride tileSize : List ℕ) : List ℕ :=
  (range tileSize.length).map (tileStrideAt size stride tileSize (outerDims size stride))

theorem tileStrides_getD (hlen : tileSize.length = size.length) (hd : d < size.length) :
    (tileStrides size stride tileSize).getD d 0 =
      tileStrideAt size stride tileSize (outerDims size stride) d := by
  simp [tileStrides, hlen, hd]

theorem forall_mem_zip_iff (hlen : tileSize.length = size.length) :
    (∀ p ∈ size.zip tileSize, p.1 % p.2 = 0) ↔
      ∀ d < size.length, tileSize.getD d 0 ∣ size.getD d 0 := by
  constructor
  · intro h d hd
    have ht : d < tileSize.length := hlen ▸ hd
    rw [getD_eq_getElem _ _ hd, getD_eq_getElem _ _ ht]
    exact Nat.dvd_of_mod_eq_zero (h (size[d], tileSize[d])
      (mem_iff_getElem.mpr ⟨d, by simp [hd, ht], by simp⟩))
  · intro h p hp
    obtain ⟨d, hd, rfl⟩ := mem_iff_getElem.mp hp
    rw [length_zip, lt_min_iff] at hd
    have hdvd := h d hd.1
    rw [getD_eq_getElem _ _ hd.1, getD_eq_getElem _ _ hd.2] at hdvd
    simpa using Nat.mod_eq_zero_of_dvd hdvd

theorem computeTileStride_iff (hlen : tileSize.length = size.length) :
    computeTileStride size stride tileSize = .ok ts ↔
      Accepted size stride tileSize ∧ ts = tileStrides size stride tileSize := by
  rw [computeTileStride_eq_ok_iff, forall_mem_zip_iff hlen, ← and_assoc]
  exact and_congr_left fun _ => ⟨fun h => ⟨hlen, h.1, h.2⟩, fun h => ⟨h.dvd, h.weights⟩⟩

theorem lt_of_mem_outerDims (hd : d ∈ outerDims size stride) : d < size.length := by
  rw [outerDims, mem_reverse, mem_regularDims] at hd
  exact hd.1.1

theorem nodup_outerDims : (outerDims size stride).Nodup :=
  nodup_reverse.mpr (nodup_regularDims size stride)

/-- A sum over all dimensions in which the other ones do not count. -/
theorem sum_outerDims (size stride : List ℕ)
    (hf : ∀ d < size.length, d ∉ outerDims size stride → f d = 0) :
    ∑ d ∈ Finset.range size.length, f d = ((outerDims size stride).map f).sum := by
  rw [← sum_toFinset f nodup_outerDims]
  refine (Finset.sum_subset (fun d hd => ?_) fun d hd hirregular => ?_).symm
  · exact Finset.mem_range.mpr (lt_of_mem_outerDims (mem_toFinset.mp hd))
  · exact hf d (Finset.mem_range.mp hd) fun hmem => hirregular (mem_toFinset.mpr hmem)

theorem prod_outerDims (hf : ∀ d < size.length, d ∉ outerDims size stride → f d = 1) :
    ∏ d ∈ Finset.range size.length, f d = ((outerDims size stride).map f).prod := by
  rw [← prod_toFinset f nodup_outerDims]
  refine (Finset.prod_subset (fun d hd => ?_) fun d hd hirregular => ?_).symm
  · exact Finset.mem_range.mpr (lt_of_mem_outerDims (mem_toFinset.mp hd))
  · exact hf d (Finset.mem_range.mp hd) fun hmem => hirregular (mem_toFinset.mpr hmem)

theorem NestedTensor.tensorExtent_eq (h : NestedTensor size stride) :
    tensorExtent size stride = ((outerDims size stride).map fun d =>
      (size.getD d 0 - 1) * stride.getD d 0).sum + 1 := by
  have hget : ∀ d, (size.map (· - 1)).getD d 0 = size.getD d 0 - 1 := fun d => by
    rcases Nat.lt_or_ge d size.length with hd | hd <;> simp [hd]
  rw [tensorExtent, linearOffset_eq_sum (by simp [h.length_eq]), h.length_eq,
    sum_outerDims size stride]
  · simp only [hget]
  · intro d hd hirregular
    rw [hget, h.size_eq_one hd hirregular, Nat.sub_self, Nat.zero_mul]

section Cut

variable (h : NestedTensor size stride) (htile : Accepted size stride tileSize)
include h htile

theorem tileSize_pos {d : ℕ} (hd : d < size.length) : 0 < tileSize.getD d 0 :=
  Nat.pos_of_dvd_of_pos (htile.dvd d hd) (h.getD_pos hd)

/-- An accepted tile list cuts the tensor. -/
theorem cut_outerDims :
    Cut (size.getD · 0) (stride.getD · 0) (tileSize.getD · 0) (countAt size tileSize)
      (fun d => stride.getD d 0 / weight (countAt size tileSize) (outerDims size stride) d)
      (outerDims size stride) where
  nodup := nodup_outerDims
  pos d hd := by
    rw [outerDims, mem_reverse, mem_regularDims] at hd
    exact Nat.pos_of_ne_zero hd.2.2
  chain := isChain_reverse.mpr h.nested
  tiles d hd := Nat.mul_div_cancel' (htile.dvd d (lt_of_mem_outerDims hd))
  step d hd := Nat.div_mul_cancel (htile.weights d hd)

/-- A dimension that is not regular is not cut. -/
theorem tileSize_eq_one {d : ℕ} (hd : d < size.length) (hirregular : d ∉ outerDims size stride) :
    tileSize.getD d 0 = 1 :=
  Nat.dvd_one.mp (h.size_eq_one hd hirregular ▸ htile.dvd d hd)

variable {x : List ℕ}

omit h in
/-- The offset of an element of a tile. -/
theorem linearOffset_tile (hx : x ∈ coordinates tileSize) :
    linearOffset (tileStrides size stride tileSize) x =
      ((outerDims size stride).map fun d => x.getD d 0 * (stride.getD d 0 /
        weight (countAt size tileSize) (outerDims size stride) d)).sum := by
  obtain ⟨hlen, hlt⟩ := mem_coordinates.mp hx
  have hlength : (tileStrides size stride tileSize).length = size.length := by
    simp [tileStrides, htile.length_eq]
  rw [linearOffset_eq_sum (by simpa [tileStrides] using hlen), hlength, sum_outerDims]
  · refine congrArg sum (map_congr_left fun d hd => ?_)
    have hxd := hlt d (htile.length_eq ▸ lt_of_mem_outerDims hd)
    rw [tileStrides_getD htile.length_eq (lt_of_mem_outerDims hd), tileStrideAt]
    by_cases hone : 1 < tileSize.getD d 0
    · rw [if_pos ⟨hd, hone⟩]
    · obtain hzero : x.getD d 0 = 0 := by omega
      rw [hzero, Nat.zero_mul, Nat.zero_mul]
  · intro d hd hirregular
    rw [tileStrides_getD htile.length_eq hd, tileStrideAt, if_neg fun h => hirregular h.1,
      Nat.mul_zero]

/-- Distinct elements of a tile have distinct offsets. -/
theorem injOn_linearOffset :
    Set.InjOn (linearOffset (tileStrides size stride tileSize)) (coordinates tileSize) := by
  intro x hx y hy heq
  have hcut := cut_outerDims h htile
  rw [linearOffset_tile htile hx, linearOffset_tile htile hy] at heq
  obtain ⟨hlenx, hltx⟩ := mem_coordinates.mp hx
  obtain ⟨hleny, hlty⟩ := mem_coordinates.mp hy
  have hmem : ∀ d ∈ outerDims size stride, d < tileSize.length := fun d hd =>
    htile.length_eq ▸ lt_of_mem_outerDims hd
  have hregular := eq_of_sum_eq (fun d hd => hcut.step_pos hd) hcut.isChain
    (fun d hd => hltx d (hmem d hd)) (fun d hd => hlty d (hmem d hd)) heq
  refine ext_getElem (hlenx.trans hleny.symm) fun d hd hd' => ?_
  rw [← getD_eq_getElem _ 0 hd, ← getD_eq_getElem _ 0 hd']
  by_cases hout : d ∈ outerDims size stride
  · exact hregular d hout
  · have hlt : d < tileSize.length := hlenx ▸ hd
    have hone := tileSize_eq_one h htile (htile.length_eq ▸ hlt) hout
    have := hltx d hlt
    have := hlty d hlt
    omega

/-- A tile takes no more than its share of the extent. -/
theorem linearOffset_lt (hx : x ∈ coordinates tileSize) :
    linearOffset (tileStrides size stride tileSize) x <
      (tensorExtent size stride + tileCount size tileSize - 1) / tileCount size tileSize := by
  have hcut := cut_outerDims h htile
  have hmem : ∀ d ∈ outerDims size stride, d < size.length := fun d hd => lt_of_mem_outerDims hd
  have hcount : tileCount size tileSize =
      ((outerDims size stride).map (countAt size tileSize)).prod := by
    rw [tileCount_eq_prod htile.length_eq, prod_outerDims]
    intro d hd hirregular
    rw [countAt, h.size_eq_one hd hirregular, tileSize_eq_one h htile hd hirregular]
  have hpos : 0 < tileCount size tileSize := by
    rw [hcount]
    refine Strided.prod_pos fun d hd => ?_
    exact Nat.div_pos (Nat.le_of_dvd (h.getD_pos (hmem d hd)) (htile.dvd d (hmem d hd)))
      (tileSize_pos h htile (hmem d hd))
  have hextent := hcut.extent_le fun d hd => tileSize_pos h htile (hmem d hd)
  have hle : ((outerDims size stride).map fun d => x.getD d 0 * (stride.getD d 0 /
      weight (countAt size tileSize) (outerDims size stride) d)).sum ≤
        ((outerDims size stride).map fun d => (tileSize.getD d 0 - 1) * (stride.getD d 0 /
          weight (countAt size tileSize) (outerDims size stride) d)).sum := by
    refine sum_le_sum fun d hd => Nat.mul_le_mul_right _ ?_
    have := (mem_coordinates.mp hx).2 d (htile.length_eq ▸ hmem d hd)
    omega
  rw [linearOffset_tile htile hx, Nat.lt_iff_add_one_le, Nat.le_div_iff_mul_le hpos]
  refine (Nat.mul_le_mul_right _ (Nat.add_le_add_right hle 1)).trans ?_
  rw [← h.tensorExtent_eq, ← hcount] at hextent
  omega

end Cut

/-! ## Tiles of tiles -/

section Compose

variable {first : List ℕ}

/-- The tile lists between a tensor and a tile of it. -/
structure Between (size first tileSize : List ℕ) : Prop where
  length_eq : first.length = size.length
  dvd : ∀ d < size.length, tileSize.getD d 0 ∣ first.getD d 0
  dvd_size : ∀ d < size.length, first.getD d 0 ∣ size.getD d 0

variable (h : NestedTensor size stride) (htile : Accepted size stride tileSize)
  (hfirst : Between size first tileSize)
include h htile hfirst

variable {d : ℕ}

omit htile in
theorem first_pos (hd : d < size.length) : 0 < first.getD d 0 :=
  Nat.pos_of_dvd_of_pos (hfirst.dvd_size d hd) (h.getD_pos hd)

omit htile in
/-- The counts of both tilings together. -/
theorem weight_countAt (d : ℕ) :
    weight (countAt size tileSize) (outerDims size stride) d =
      weight (countAt size first) (outerDims size stride) d *
        weight (countAt first tileSize) (outerDims size stride) d := by
  rw [← weight_mul]
  refine weight_congr (fun e he => ?_) d
  have he := lt_of_mem_outerDims he
  unfold countAt
  rw [Nat.div_mul_div_comm (hfirst.dvd_size e he) (hfirst.dvd e he), Nat.mul_comm,
    Nat.mul_div_mul_left _ _ (first_pos h hfirst he)]

/-- The first tiling is accepted. -/
theorem accepted_first : Accepted size stride first where
  length_eq := hfirst.length_eq
  dvd := hfirst.dvd_size
  weights d hd := by
    have hdvd := htile.weights d hd
    rw [weight_countAt h hfirst] at hdvd
    exact (Nat.dvd_mul_right _ _).trans hdvd

omit h htile in
theorem tileStrides_of_mem (hd : d ∈ outerDims size stride) (hlt : 1 < first.getD d 0) :
    (tileStrides size stride first).getD d 0 =
      stride.getD d 0 / weight (countAt size first) (outerDims size stride) d := by
  rw [tileStrides_getD hfirst.length_eq (lt_of_mem_outerDims hd), tileStrideAt, if_pos ⟨hd, hlt⟩]

/-- The second tiling takes the dimensions that are left in the same order. -/
theorem regularDims_first :
    regularDims first (tileStrides size stride first) =
      (regularDims size stride).filter (1 < first.getD · 0) := by
  have hcut := cut_outerDims h (accepted_first h htile hfirst)
  have hlen : (tileStrides size stride first).length = first.length := by simp [tileStrides]
  have hmem : ∀ d, d ∈ regularDims first (tileStrides size stride first) ↔
      d ∈ (regularDims size stride).filter (1 < first.getD · 0) := by
    intro d
    rw [mem_regularDims, mem_filter, decide_eq_true_eq, hlen, and_self, ← mem_reverse, ← outerDims]
    constructor
    · rintro ⟨hd, hsize, hstride⟩
      have hd : d < size.length := hfirst.length_eq ▸ hd
      rw [tileStrides_getD hfirst.length_eq hd, tileStrideAt] at hstride
      by_contra hnot
      exact hstride (if_neg hnot)
    · rintro ⟨hd, hlt⟩
      refine ⟨hfirst.length_eq ▸ lt_of_mem_outerDims hd, by omega, ?_⟩
      rw [tileStrides_of_mem hfirst hd hlt]
      exact (hcut.step_pos hd).ne'
  have hperm := (perm_ext_iff_of_nodup (nodup_regularDims _ _)
    ((nodup_regularDims size stride).filter _)).mpr hmem
  have hfiltered : ∀ d, d ∈ (regularDims size stride).filter (1 < first.getD · 0) →
      d ∈ outerDims size stride ∧ 1 < first.getD d 0 := fun d hd => by
    simpa [outerDims] using hd
  have hpairwise := hcut.pairwise fun d hd => first_pos h hfirst (lt_of_mem_outerDims hd)
  have hsorted : ((regularDims size stride).filter (1 < first.getD · 0)).Pairwise fun d e =>
      (tileStrides size stride first).getD d 0 ≤ (tileStrides size stride first).getD e 0 := by
    refine ((pairwise_reverse.mp hpairwise).filter _).imp_of_mem fun {d e} hd he hle => ?_
    obtain ⟨hd, hdlt⟩ := hfiltered d hd
    obtain ⟨he, helt⟩ := hfiltered e he
    rw [tileStrides_of_mem hfirst hd hdlt, tileStrides_of_mem hfirst he helt]
    exact (Nat.le_mul_of_pos_right _ (by omega)).trans hle
  refine List.Perm.eq_of_pairwise (fun d e hd he hde hed => ?_) (List.pairwise_insertionSort _ _)
    hsorted hperm
  obtain ⟨hd, hdlt⟩ := hfiltered d ((hmem d).mp hd)
  obtain ⟨he, helt⟩ := hfiltered e he
  rw [tileStrides_of_mem hfirst hd hdlt, tileStrides_of_mem hfirst he helt] at hde hed
  by_contra hne
  exact hcut.step_ne (fun d hd => first_pos h hfirst (lt_of_mem_outerDims hd)) hd he hne hdlt helt
    (le_antisymm hde hed)

theorem outerDims_first :
    outerDims first (tileStrides size stride first) =
      (outerDims size stride).filter (1 < first.getD · 0) := by
  rw [outerDims, regularDims_first h htile hfirst, outerDims, filter_reverse]

omit htile in
/-- The dimensions that are dropped have one tile in the second tiling. -/
theorem weight_filter_first (hlt : 1 < first.getD d 0) :
    weight (countAt first tileSize) ((outerDims size stride).filter (1 < first.getD · 0)) d =
      weight (countAt first tileSize) (outerDims size stride) d := by
  refine weight_filter (fun e he hone => ?_) (decide_eq_true hlt)
  have he := lt_of_mem_outerDims he
  have hpos := first_pos h hfirst he
  have hsize : first.getD e 0 = 1 := by
    have := of_decide_eq_false hone
    omega
  have htile : tileSize.getD e 0 = 1 := Nat.dvd_one.mp (hsize ▸ hfirst.dvd e he)
  rw [countAt, hsize, htile]

/-- The second tiling is accepted. -/
theorem accepted_second : Accepted first (tileStrides size stride first) tileSize where
  length_eq := htile.length_eq.trans hfirst.length_eq.symm
  dvd d hd := hfirst.dvd d (hfirst.length_eq ▸ hd)
  weights d hd := by
    rw [outerDims_first h htile hfirst] at hd ⊢
    obtain ⟨hd, hlt⟩ := mem_filter.mp hd
    have hlt := of_decide_eq_true hlt
    rw [weight_filter_first h hfirst hlt, tileStrides_of_mem hfirst hd hlt]
    have hdvd := htile.weights d hd
    rw [weight_countAt h hfirst] at hdvd
    exact Nat.dvd_div_of_mul_dvd hdvd

/-- Both tilings together give the strides of the second. -/
theorem tileStrideAt_second (hd : d < size.length) :
    tileStrideAt first (tileStrides size stride first) tileSize
        (outerDims first (tileStrides size stride first)) d =
      tileStrideAt size stride tileSize (outerDims size stride) d := by
  rw [outerDims_first h htile hfirst, tileStrideAt, tileStrideAt]
  by_cases hregular : d ∈ outerDims size stride ∧ 1 < tileSize.getD d 0
  · have hlt : 1 < first.getD d 0 :=
      hregular.2.trans_le (Nat.le_of_dvd (first_pos h hfirst hd) (hfirst.dvd d hd))
    rw [if_pos hregular, if_pos ⟨mem_filter.mpr ⟨hregular.1, decide_eq_true hlt⟩, hregular.2⟩,
      weight_filter_first h hfirst hlt, tileStrides_of_mem hfirst hregular.1 hlt,
      weight_countAt h hfirst, Nat.div_div_eq_div_mul]
  · rw [if_neg hregular, if_neg fun hboth => hregular ⟨(mem_filter.mp hboth.1).1, hboth.2⟩]

end Compose

/-- A tile list that is accepted for a nested tensor gives strides under which the elements of a
tile are apart, and within their share of the tensor. Cutting the tensor into larger tiles first
leads to the same strides. -/
theorem computeTileStride_nested (size stride tileSize ts : List ℕ) (h : NestedTensor size stride)
    (hlen : tileSize.length = size.length) (hts : computeTileStride size stride tileSize = .ok ts) :
    Set.InjOn (linearOffset ts) (coordinates tileSize) ∧
      (∀ x ∈ coordinates tileSize, linearOffset ts x <
        (tensorExtent size stride + tileCount size tileSize - 1) / tileCount size tileSize) ∧
      ∀ first, Between size first tileSize → ∃ firstTs,
        computeTileStride size stride first = .ok firstTs ∧
          computeTileStride first firstTs tileSize = .ok ts := by
  obtain ⟨htile, rfl⟩ := (computeTileStride_iff hlen).mp hts
  refine ⟨injOn_linearOffset h htile, fun x hx => linearOffset_lt h htile hx,
    fun first hfirst => ⟨tileStrides size stride first, ?_, ?_⟩⟩
  · exact (computeTileStride_iff hfirst.length_eq).mpr ⟨accepted_first h htile hfirst, rfl⟩
  · refine (computeTileStride_iff (hlen.trans hfirst.length_eq.symm)).mpr
      ⟨accepted_second h htile hfirst, map_congr_left fun d hd => ?_⟩
    exact (tileStrideAt_second h htile hfirst (hlen ▸ mem_range.mp hd)).symm

/-- Two rows of four elements, with a gap between them. -/
theorem nestedTensor_rows {gap : ℕ} (hgap : 4 ≤ gap)
    (hdims : regularDims [2, 4] [gap, 1] = [1, 0]) : NestedTensor [2, 4] [gap, 1] where
  length_eq := rfl
  size_pos := by decide
  distinct := by
    intro x hx y hy heq
    obtain _ | ⟨ha, _ | ⟨hb, _ | _⟩⟩ := hx
    obtain _ | ⟨hc, _ | ⟨hd, _ | _⟩⟩ := hy
    rename_i a b c d
    simp only [linearOffset, zipWith_cons_cons, zipWith_nil_right, sum_cons, sum_nil] at heq
    obtain rfl : a = c := by
      rcases Nat.lt_trichotomy a c with hlt | hac | hlt
      · obtain ⟨rfl, rfl⟩ : a = 0 ∧ c = 1 := by omega
        omega
      · exact hac
      · obtain ⟨rfl, rfl⟩ : a = 1 ∧ c = 0 := by omega
        omega
    obtain rfl : b = d := by omega
    rfl
  nested := by
    rw [hdims]
    exact isChain_pair.mpr (by simpa using hgap)

theorem computeTileStride_nested_rows :
    Set.InjOn (linearOffset [3, 1]) (coordinates [2, 2]) ∧
      (∀ x ∈ coordinates [2, 2], linearOffset [3, 1] x <
        (tensorExtent [2, 4] [6, 1] + tileCount [2, 4] [2, 2] - 1) / tileCount [2, 4] [2, 2]) ∧
      ∀ first, Between [2, 4] first [2, 2] → ∃ firstTs,
        computeTileStride [2, 4] [6, 1] first = .ok firstTs ∧
          computeTileStride first firstTs [2, 2] = .ok [3, 1] :=
  computeTileStride_nested [2, 4] [6, 1] [2, 2] [3, 1] (nestedTensor_rows (by decide) rfl) rfl
    rfl

/-- The first tiling cuts the rows apart, and the second does not look at the distance of the rows
any more. Both at once are refused. -/
theorem rows_tiled_twice :
    NestedTensor [2, 4] [5, 1] ∧ Between [2, 4] [1, 4] [1, 2] ∧
      computeTileStride [2, 4] [5, 1] [1, 4] = .ok [0, 1] ∧
      computeTileStride [1, 4] [0, 1] [1, 2] = .ok [0, 1] ∧
      computeTileStride [2, 4] [5, 1] [1, 2] = .error (.strideNotDivisible 5 0 2) :=
  ⟨nestedTensor_rows (by decide) rfl, ⟨rfl, by decide, by decide⟩, rfl, rfl, rfl⟩

end Tiles

end TorchSpyre
