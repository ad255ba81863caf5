import Mathlib
import TorchSpyre.Layout.Tensor

/-!
# The strides of a tile

`compute_tile_stride` in `wsr/tile.py`. The dimensions of a tensor that have a size and a
stride to speak of are taken in the order of their strides, and each stride is divided by the
number of tiles in the dimensions before. A tile of a dense tensor is dense in the same order
(`DenseTensor.tile`), and its strides are what the loop finds, but for the dimensions of size
one, which get stride zero (`computeTileStride_eq`).
-/

open List

namespace TorchSpyre

open Checked Strided

/-- What `compute_tile_stride` raises. -/
inductive TileStrideError where
  | sizesDoNotDivide (tileSize size : List ℕ)
  | strideNotDivisible (stride dim runningTileCount : ℕ)
deriving DecidableEq

/-- What the loop of `compute_tile_stride` carries. -/
structure TileStrideState where
  tileStride : List ℕ
  runningTileCount : ℕ

/-- The body of the loop of `compute_tile_stride`. -/
def tileStrideStep (size stride tileSize : List ℕ) (st : TileStrideState) (d : ℕ) :
    Except TileStrideError TileStrideState := do
  guardE (stride.getD d 0 % st.runningTileCount = 0)
    (.strideNotDivisible (stride.getD d 0) d st.runningTileCount)
  return {
    tileStride :=
      if 1 < tileSize.getD d 0 then
        st.tileStride.set d (stride.getD d 0 / st.runningTileCount)
      else st.tileStride
    runningTileCount := st.runningTileCount * (size.getD d 0 / tileSize.getD d 0) }

/-- The regular dimensions, in increasing stride order. -/
def regularDims (size stride : List ℕ) : List ℕ :=
  ((List.range (min size.length stride.length)).filter fun d =>
    size.getD d 0 ≠ 1 ∧ stride.getD d 0 ≠ 0).insertionSort fun a b =>
      stride.getD a 0 ≤ stride.getD b 0

/-- `compute_tile_stride`. -/
def computeTileStride (size stride tileSize : List ℕ) : Except TileStrideError (List ℕ) := do
  guardE (∀ p ∈ size.zip tileSize, p.1 % p.2 = 0) (.sizesDoNotDivide tileSize size)
  let st ← foldE (tileStrideStep size stride tileSize)
    { tileStride := List.replicate tileSize.length 0, runningTileCount := 1 }
    (regularDims size stride)
  return st.tileStride

/-! ## The closed form -/

section Closed

variable (size stride tileSize : List ℕ)

/-- The number of tiles in a dimension. -/
def countAt (d : ℕ) : ℕ :=
  size.getD d 0 / tileSize.getD d 0

/-- The stride of a tile, once the dimensions `l` are done. -/
def tileStrideAt (l : List ℕ) (d : ℕ) : ℕ :=
  if d ∈ l ∧ 1 < tileSize.getD d 0 then
    stride.getD d 0 / weight (countAt size tileSize) l d
  else 0

/-- The state of the loop after the dimensions `l`. -/
def tileState (l : List ℕ) : TileStrideState where
  tileStride := (List.range tileSize.length).map (tileStrideAt size stride tileSize l)
  runningTileCount := (l.map (countAt size tileSize)).prod

variable {size stride tileSize}

variable {l : List ℕ}

theorem tileState_cons {a : ℕ} :
    tileState size stride tileSize (a :: l) =
      { tileStride :=
          if 1 < tileSize.getD a 0 then
            (tileState size stride tileSize l).tileStride.set a
              (stride.getD a 0 / (tileState size stride tileSize l).runningTileCount)
          else (tileState size stride tileSize l).tileStride
        runningTileCount := (tileState size stride tileSize l).runningTileCount *
          (size.getD a 0 / tileSize.getD a 0) } := by
  have hne : ∀ d, d ≠ a → tileStrideAt size stride tileSize (a :: l) d =
      tileStrideAt size stride tileSize l d := fun d h => by
    simp [tileStrideAt, h, weight_cons_of_ne _ l h]
  unfold tileState
  congr 1
  · split_ifs with hlt
    · refine ext_getElem (by simp) fun d h₁ h₂ => ?_
      rw [getElem_set]
      by_cases hd : a = d
      · subst hd
        rw [if_pos rfl, getElem_map, getElem_range, tileStrideAt,
          if_pos ⟨mem_cons_self, hlt⟩, weight_cons_self]
      · rw [if_neg hd, getElem_map, getElem_map, getElem_range, hne d (Ne.symm hd)]
    · refine map_congr_left fun d _ => ?_
      by_cases hd : d = a
      · rw [hd, tileStrideAt, tileStrideAt, if_neg fun h => hlt h.2, if_neg fun h => hlt h.2]
      · exact hne d hd
  · rw [map_cons, prod_cons, Nat.mul_comm]
    rfl

variable (size stride tileSize) in
/-- The loop succeeds where the counts inside divide every stride, and each stride is divided by
them. The dimensions are listed from the outermost one in. -/
theorem foldE_eq_ok_iff (hnodup : l.Nodup) (st : TileStrideState) :
    foldE (tileStrideStep size stride tileSize)
        { tileStride := List.replicate tileSize.length 0, runningTileCount := 1 } l.reverse =
          .ok st ↔
      (∀ d ∈ l, weight (countAt size tileSize) l d ∣ stride.getD d 0) ∧
        st = tileState size stride tileSize l := by
  induction l generalizing st with
  | nil =>
    have hstrides : tileStrideAt size stride tileSize [] = fun _ => 0 := by
      funext d
      simp [tileStrideAt]
    have hstate : tileState size stride tileSize [] =
        { tileStride := List.replicate tileSize.length 0, runningTileCount := 1 } := by
      simp [tileState, hstrides, map_const']
    simp [foldE, hstate, eq_comm]
  | cons a l ih =>
    obtain ⟨ha, hl⟩ := nodup_cons.mp hnodup
    have hweight : ∀ d ∈ l, weight (countAt size tileSize) (a :: l) d =
        weight (countAt size tileSize) l d := fun d hd =>
      weight_cons_of_ne _ l fun h => ha (h ▸ hd)
    have hstep : tileStrideStep size stride tileSize (tileState size stride tileSize l) a = .ok st ↔
        (l.map (countAt size tileSize)).prod ∣ stride.getD a 0 ∧
          st = tileState size stride tileSize (a :: l) := by
      rw [tileStrideStep, bind_eq_ok_iff, tileState_cons]
      constructor
      · rintro ⟨_, hguard, h⟩
        exact ⟨Nat.dvd_of_mod_eq_zero (guardE_eq_ok_iff.mp hguard), (Except.ok.inj h).symm⟩
      · rintro ⟨hdvd, rfl⟩
        exact ⟨(), guardE_eq_ok_iff.mpr (Nat.mod_eq_zero_of_dvd hdvd), rfl⟩
    rw [reverse_cons, foldE_concat]
    simp only [ih hl, forall_mem_cons, weight_cons_self]
    constructor
    · rintro ⟨t, ⟨hdvd, rfl⟩, hst⟩
      obtain ⟨hdvd_a, rfl⟩ := hstep.mp hst
      exact ⟨⟨hdvd_a, fun d hd => hweight d hd ▸ hdvd d hd⟩, rfl⟩
    · rintro ⟨⟨hdvd_a, hdvd⟩, rfl⟩
      exact ⟨_, ⟨fun d hd => hweight d hd ▸ hdvd d hd, rfl⟩, hstep.mpr ⟨hdvd_a, rfl⟩⟩

variable (size stride) in
theorem nodup_regularDims : (regularDims size stride).Nodup :=
  (perm_insertionSort _ _).nodup_iff.mpr (nodup_range.filter _)

theorem mem_regularDims {d : ℕ} : d ∈ regularDims size stride ↔
    (d < size.length ∧ d < stride.length) ∧ size.getD d 0 ≠ 1 ∧ stride.getD d 0 ≠ 0 := by
  rw [regularDims, (perm_insertionSort _ _).mem_iff, mem_filter, mem_range,
    lt_min_iff, decide_eq_true_eq]

/-- The regular dimensions, the outermost one first. -/
def outerDims (size stride : List ℕ) : List ℕ :=
  (regularDims size stride).reverse

theorem computeTileStride_eq_ok_iff {ts : List ℕ} :
    computeTileStride size stride tileSize = .ok ts ↔
      (∀ p ∈ size.zip tileSize, p.1 % p.2 = 0) ∧
      (∀ d ∈ outerDims size stride, weight (countAt size tileSize) (outerDims size stride) d ∣
        stride.getD d 0) ∧
      ts = (List.range tileSize.length).map
        (tileStrideAt size stride tileSize (outerDims size stride)) := by
  have hreverse := nodup_reverse.mpr (nodup_regularDims size stride)
  have hfold := foldE_eq_ok_iff size stride tileSize hreverse
  simp only [reverse_reverse] at hfold
  unfold computeTileStride
  rw [bind_eq_ok_iff]
  constructor
  · rintro ⟨_, hguard, h⟩
    obtain ⟨st, hst, hts⟩ := bind_eq_ok_iff.mp h
    obtain ⟨hweights, rfl⟩ := (hfold st).mp hst
    exact ⟨guardE_eq_ok_iff.mp hguard, hweights, (Except.ok.inj hts).symm⟩
  · rintro ⟨hdvd, hweights, rfl⟩
    exact ⟨(), guardE_eq_ok_iff.mpr hdvd,
      bind_eq_ok_iff.mpr ⟨_, (hfold _).mpr ⟨hweights, rfl⟩, rfl⟩⟩

end Closed

/-! ## Tiles of a dense tensor -/

namespace DenseTensor

variable (T : DenseTensor)

/-- A tile of a dense tensor, stored in the order of the tensor. -/
abbrev tile (size : ℕ → ℕ) (hpos : ∀ d < T.rank, 0 < size d) : DenseTensor :=
  { T with size, size_pos := hpos }

variable {T}

/-- Two dimensions that are not of size one have different strides. -/
theorem hostStride_ne {d e : ℕ} (hd : d < T.rank) (he : e < T.rank) (hde : d ≠ e)
    (hdsize : T.size d ≠ 1) (hesize : T.size e ≠ 1) : T.hostStride d ≠ T.hostStride e := by
  have hd₀ := T.size_pos d hd
  have he₀ := T.size_pos e he
  have hd₁ := T.hostStride_pos d
  have he₁ := T.hostStride_pos e
  rcases span_dvd_hostStride hd he hde with h | h
  · have := Nat.le_of_dvd he₁ h
    have : 2 * T.hostStride d ≤ T.size d * T.hostStride d := Nat.mul_le_mul_right _ (by omega)
    omega
  · have := Nat.le_of_dvd hd₁ h
    have : 2 * T.hostStride e ≤ T.size e * T.hostStride e := Nat.mul_le_mul_right _ (by omega)
    omega

theorem nodup_order : T.order.Nodup :=
  T.order_perm.nodup_iff.mpr nodup_range

end DenseTensor

section Dense

variable {T : DenseTensor} {tile : ℕ → ℕ}

/-- The loop takes the dimensions from the innermost one out. -/
theorem regularDims_eq :
    regularDims T.hostSize T.hostStrides = (T.order.filter (T.size · ≠ 1)).reverse := by
  have hlen : min T.hostSize.length T.hostStrides.length = T.rank := by
    simp [DenseTensor.hostSize, DenseTensor.hostStrides]
  have hfilter : (List.range T.rank).filter (fun d =>
      T.hostSize.getD d 0 ≠ 1 ∧ T.hostStrides.getD d 0 ≠ 0) =
        (List.range T.rank).filter (T.size · ≠ 1) := by
    refine filter_congr fun d hd => ?_
    have hd := mem_range.mp hd
    rw [DenseTensor.hostSize_getD hd, DenseTensor.hostStrides_getD hd]
    simp [(T.hostStride_pos d).ne']
  have hperm : (regularDims T.hostSize T.hostStrides).Perm
      (T.order.filter (T.size · ≠ 1)).reverse := by
    rw [regularDims, hlen, hfilter]
    exact (perm_insertionSort _ _).trans
      ((T.order_perm.symm.filter _).trans (reverse_perm _).symm)
  have hmem : ∀ d ∈ (T.order.filter (T.size · ≠ 1)).reverse, d < T.rank ∧ T.size d ≠ 1 := by
    intro d hd
    simpa [DenseTensor.mem_order] using hd
  have hsorted : (regularDims T.hostSize T.hostStrides).Pairwise fun d e =>
      T.hostStrides.getD d 0 ≤ T.hostStrides.getD e 0 := List.pairwise_insertionSort _ _
  have horder : (T.order.filter (T.size · ≠ 1)).reverse.Pairwise fun d e =>
      T.hostStrides.getD d 0 ≤ T.hostStrides.getD e 0 := by
    rw [pairwise_reverse]
    have hpair := pairwise_weight T.nodup_order
      fun d hd => T.size_pos d (DenseTensor.mem_order.mp hd)
    refine (hpair.filter _).imp_of_mem fun {d e} hd he h => ?_
    have hd := (hmem d (mem_reverse.mpr hd)).1
    have he := (hmem e (mem_reverse.mpr he)).1
    rwa [DenseTensor.hostStrides_getD hd, DenseTensor.hostStrides_getD he]
  refine List.Perm.eq_of_pairwise (fun d e hd he hde hed => ?_) hsorted horder hperm
  obtain ⟨hd, hdsize⟩ := hmem d (hperm.mem_iff.mp hd)
  obtain ⟨he, hesize⟩ := hmem e he
  rw [DenseTensor.hostStrides_getD hd, DenseTensor.hostStrides_getD he] at hde hed
  by_contra hne
  exact DenseTensor.hostStride_ne hd he hne hdsize hesize (le_antisymm hde hed)

theorem countAt_eq (hdvd : ∀ d < T.rank, tile d ∣ T.size d) {d : ℕ} (hd : d < T.rank) :
    tile d * countAt T.hostSize ((List.range T.rank).map tile) d = T.size d := by
  have htile : ((List.range T.rank).map tile).getD d 0 = tile d := by simp [hd]
  rw [countAt, DenseTensor.hostSize_getD hd, htile, Nat.mul_div_cancel' (hdvd d hd)]

/-- The stride of a dimension is that of the dense tile times the number of tiles inside. -/
theorem hostStride_eq_mul (hpos : ∀ d < T.rank, 0 < tile d) (hdvd : ∀ d < T.rank, tile d ∣ T.size d)
    {d : ℕ} (hd : d ∈ outerDims T.hostSize T.hostStrides) :
    T.hostStride d = (T.tile tile hpos).hostStride d *
      weight (countAt T.hostSize ((List.range T.rank).map tile))
        (outerDims T.hostSize T.hostStrides) d := by
  rw [outerDims, regularDims_eq, reverse_reverse] at hd ⊢
  rw [weight_filter (fun e he hsize => ?_) (of_mem_filter hd), DenseTensor.hostStride,
    DenseTensor.hostStride, ← weight_mul]
  · exact weight_congr (fun e he => (countAt_eq hdvd (DenseTensor.mem_order.mp he)).symm) d
  · have hone : T.size e = 1 := by simpa using hsize
    exact Nat.eq_one_of_mul_eq_one_left
      ((countAt_eq hdvd (DenseTensor.mem_order.mp he)).trans hone)

/-- The strides of a tile of a dense tensor are those of the dense tile, but for the dimensions
of size one. -/
theorem computeTileStride_eq (hpos : ∀ d < T.rank, 0 < tile d)
    (hdvd : ∀ d < T.rank, tile d ∣ T.size d) :
    computeTileStride T.hostSize T.hostStrides (T.tile tile hpos).hostSize =
      .ok ((List.range T.rank).map fun d =>
        if 1 < tile d then (T.tile tile hpos).hostStride d else 0) := by
  have hmem : ∀ d, d ∈ outerDims T.hostSize T.hostStrides ↔ d < T.rank ∧ T.size d ≠ 1 :=
    fun d => by simp [outerDims, regularDims_eq, DenseTensor.mem_order]
  have hlen : (T.tile tile hpos).hostSize.length = T.rank := by simp [DenseTensor.hostSize]
  refine computeTileStride_eq_ok_iff.mpr ⟨?_, fun d hd => ?_, ?_⟩
  · intro p hp
    obtain ⟨d, hd, rfl⟩ : ∃ d < T.rank, (T.size d, tile d) = p := by
      simpa [DenseTensor.hostSize, DenseTensor.tile, zip_map'] using hp
    exact Nat.mod_eq_zero_of_dvd (hdvd d hd)
  · rw [DenseTensor.hostStrides_getD ((hmem d).mp hd).1]
    exact Dvd.intro_left _ (hostStride_eq_mul hpos hdvd hd).symm
  · rw [hlen]
    refine map_congr_left fun d hd => ?_
    have hd := mem_range.mp hd
    rw [tileStrideAt, DenseTensor.hostSize_getD (T := T.tile tile hpos) hd,
      DenseTensor.hostStrides_getD hd]
    by_cases hlt : 1 < tile d
    · have hsize : T.size d ≠ 1 := fun hone => by
        have := Nat.le_of_dvd Nat.one_pos (hone ▸ hdvd d hd)
        omega
      have hd := (hmem d).mpr ⟨hd, hsize⟩
      have hmul := hostStride_eq_mul hpos hdvd hd
      rw [if_pos hlt, if_pos ⟨hd, hlt⟩]
      refine (Nat.div_eq_of_eq_mul_left (Nat.pos_of_ne_zero fun hzero => ?_) hmul).symm
      exact (T.hostStride_pos d).ne' (hmul.trans (mul_eq_zero_of_right _ hzero))
    · rw [if_neg hlt, if_neg fun h => hlt h.2]

end Dense

end TorchSpyre
