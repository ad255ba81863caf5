import Mathlib
import TorchSpyre.Tiling.Advance

/-!
# When tile advances land on the tile

The coefficient of a level, times its trip index and summed over the levels, against the
device position of the first element of the tile.

Both sides are sums over the host dimensions. They agree on every dimension that is not cut
into sticks. On the stick dimension the coefficients move by whole sticks or within a stick,
which is right for all trips exactly when the tiles end where sticks end, or stay in the
first stick, or the sticks lie next to each other in memory (`StickAligned`). Sticks do so
when the dimension that comes first in the order has size one, since that is the dimension
between the sticks and their elements.
-/

open List

namespace TorchSpyre

open Strided SpyreTensorLayout

namespace Tiling

/-- The condition on the tiles of the stick dimension : sticks are neighbours in memory, or
tiles of at least a stick are whole sticks (a level of one trip does not move) and tiles below
a stick stay in the first one. -/
def StickAligned (T : DenseTensor) (o : DimOrder T.rank) (elemsPerStick : ℕ)
    (levels : List TileLevel) : Prop :=
  ∀ s, o.stickDim = some s →
    (∀ d, o.dims.head? = some d → d = s ∨ T.size d = 1) ∨
      (∀ level ∈ levels, level.dim = s → 2 ≤ level.count → elemsPerStick ≤ level.extent →
        elemsPerStick ∣ level.extent) ∧
      (levels.map fun level => if level.dim = s ∧ level.extent < elemsPerStick then
        level.extent * (level.count - 1) else 0).sum < elemsPerStick

/-! ## Coefficients -/

/-- The sum has one term for each level. -/
theorem terms_generalTileAdvance (layout : SpyreTensorLayout) (hostStrides : List ℕ) (offset : ℤ)
    (levels : List TileLevel) :
    (generalTileAdvance layout hostStrides offset levels).terms =
      levels.zipIdx.map fun p =>
        ⟨p.2, deviceStep layout ((p.1.extent * hostStrides.getD p.1.dim 0 : ℕ) : ℚ)⟩ := by
  have hone : ∀ level sym, (tilingExprToDeviceExpr layout
      (hostExpr hostStrides offset level sym)).terms =
        [⟨sym, deviceStep layout ((level.extent * hostStrides.getD level.dim 0 : ℕ) : ℚ)⟩] := by
    intro level sym
    simp [tilingExprToDeviceExpr, hostExpr, TileExpr.ownCoeff]
  simp only [generalTileAdvance, hone]
  exact flatMap_pure_eq_map _ _

variable {levels : List TileLevel}

/-- The coefficient of a level is its own step, if that is an integer. -/
theorem coeffThroughFloor_eq {layout : SpyreTensorLayout} {hostStrides : List ℕ} {offset : ℤ}
    (k : Fin levels.length) {c : ℤ}
    (hc : deviceStep layout
      (((levels.get k).extent * hostStrides.getD (levels.get k).dim 0 : ℕ) : ℚ) = c) :
    coeffThroughFloor (generalTileAdvance layout hostStrides offset levels) k = .ok c := by
  have hfind : (generalTileAdvance layout hostStrides offset levels).ownCoeff k = some (c : ℚ) := by
    rw [TileExpr.ownCoeff, terms_generalTileAdvance, Option.map_eq_some_iff]
    refine ⟨⟨k, c⟩, find?_eq_some_iff_getElem.mpr ⟨by simp, k, by simp, ?_, ?_⟩, rfl⟩
    · simpa using hc
    · intro j hj
      simp only [getElem_map, getElem_zipIdx, Bool.not_eq_true', decide_eq_false_iff_not]
      omega
  simp only [coeffThroughFloor, hfind, Rat.den_intCast, if_true, Rat.num_intCast]

/-! ## The levels of a nest -/

/-- The tiles of a level fit in its dimension. -/
theorem Divides.fits {size : ℕ → ℕ} (h : Divides size levels)
    (hpos : ∀ level ∈ levels, 0 < size level.dim) :
    ∀ level ∈ levels, 0 < level.count ∧ 0 < level.extent ∧
      level.count * level.extent ≤ size level.dim := by
  induction levels generalizing size with
  | nil => simp
  | cons first levels ih =>
    obtain ⟨hfirst, hrest⟩ := h
    have hprod : 0 < first.count * first.extent := hfirst ▸ hpos first mem_cons_self
    have hcount : 0 < first.count := Nat.pos_of_mul_pos_right hprod
    have hextent : 0 < first.extent := Nat.pos_of_mul_pos_left hprod
    have hle : ∀ d, Function.update size first.dim first.extent d ≤ size d := by
      intro d
      by_cases hd : d = first.dim
      · rw [hd, Function.update_self, ← hfirst]
        exact Nat.le_mul_of_pos_left _ hcount
      · rw [Function.update_of_ne hd]
    have hpos' : ∀ level ∈ levels, 0 < Function.update size first.dim first.extent level.dim := by
      intro level hmem
      by_cases hd : level.dim = first.dim
      · rwa [hd, Function.update_self]
      · rw [Function.update_of_ne hd]
        exact hpos level (mem_cons_of_mem _ hmem)
    rintro level (_ | ⟨_, hmem⟩)
    · exact ⟨hcount, hextent, hfirst.le⟩
    · obtain ⟨hc, he, hfit⟩ := ih hrest hpos' level hmem
      exact ⟨hc, he, hfit.trans (hle level.dim)⟩

section Nest

variable {T : DenseTensor} {o : DimOrder T.rank} {S : ℕ} {levels : List TileLevel}

theorem TileNest.fits (h : TileNest T levels) (k : Fin levels.length) :
    0 < (levels.get k).count ∧ 0 < (levels.get k).extent ∧
      (levels.get k).count * (levels.get k).extent ≤ T.size (levels.get k).dim :=
  h.divides.fits (fun level hmem => T.size_pos _ (h.dim_lt level hmem)) _ (get_mem levels k)

variable {k : Fin levels.length} {s trip : ℕ}

/-- A level with a second trip has tiles smaller than its dimension. -/
theorem TileNest.extent_lt (h : TileNest T levels) (htrip : trip < (levels.get k).count)
    (hpos : 0 < trip) :
    (levels.get k).extent < T.size (levels.get k).dim := by
  obtain ⟨-, hextent, hfit⟩ := h.fits k
  have htwo : 2 * (levels.get k).extent ≤ (levels.get k).count * (levels.get k).extent :=
    Nat.mul_le_mul_right _ (by omega)
  omega

/-- The step of a level in device elements. -/
def levelStep (T : DenseTensor) (o : DimOrder T.rank) (S : ℕ) (level : TileLevel) : ℕ :=
  if o.stickDim = some level.dim then
    if S ≤ level.extent then outerWeight T o S level.dim * level.extent else level.extent
  else outerWeight T o S level.dim * S * level.extent

/-- Where a level moves at all, its coefficient is its step. -/
theorem coeff_mul_trip (hS : 0 < S) (hnest : TileNest T levels) {c : ℤ}
    (htrip : trip < (levels.get k).count)
    (hc : deviceStep (ofOrder T o S)
      (((levels.get k).extent * T.hostStride (levels.get k).dim : ℕ) : ℚ) = c) :
    c * trip = ((levelStep T o S (levels.get k) * trip : ℕ) : ℤ) := by
  rcases Nat.eq_zero_or_pos trip with rfl | hpos
  · simp
  · have hd := hnest.dim_lt _ (get_mem levels k)
    obtain ⟨-, hextent, -⟩ := hnest.fits k
    have hlt := hnest.extent_lt htrip hpos
    have hstep : deviceStep (ofOrder T o S)
        (((levels.get k).extent * T.hostStride (levels.get k).dim : ℕ) : ℚ) =
          (levelStep T o S (levels.get k) : ℕ) := by
      unfold levelStep
      by_cases hs : o.stickDim = some (levels.get k).dim
      · rw [if_pos hs, deviceStep_stick hS hd hs hextent hlt]
      · rw [if_neg hs, deviceStep_of_ne_stick hS hd hs hextent hlt]
    have hcast : (c : ℚ) = ((levelStep T o S (levels.get k) : ℕ) : ℤ) := by
      rw [← hc, hstep]
      norm_cast
    rw [Int.cast_injective hcast, Nat.cast_mul]

/-- A sum over the levels, dimension by dimension. -/
theorem sum_levels (hnest : TileNest T levels) (f : Fin levels.length → ℤ) :
    ∑ k, f k = ∑ d ∈ Finset.range T.rank, ∑ k, if (levels.get k).dim = d then f k else 0 := by
  rw [Finset.sum_comm]
  refine Finset.sum_congr rfl fun k _ => ?_
  have hd := hnest.dim_lt _ (get_mem levels k)
  rw [Finset.sum_ite_eq, if_pos (Finset.mem_range.mpr hd)]

/-- The steps along a dimension that is not cut into sticks add up to the position. -/
theorem sum_levelStep_of_ne_stick {d : ℕ} (hs : o.stickDim ≠ some d)
    (trip : Fin levels.length → ℕ) :
    (∑ k, if (levels.get k).dim = d then levelStep T o S (levels.get k) * trip k else 0) =
      outerWeight T o S d * S * tileOrigin levels trip d := by
  rw [tileOrigin, Finset.mul_sum]
  refine Finset.sum_congr rfl fun k _ => ?_
  split_ifs with hd
  · rw [levelStep, hd, if_neg hs, mul_assoc]
  · rw [mul_zero]

/-- The steps along the stick dimension add up to the position for every trip exactly when the
blocks of a stick are met. -/
theorem sum_levelStep_stick_iff (hS : 0 < S) (hnest : TileNest T levels) (hs : o.stickDim = some s)
    (hweight : 0 < outerWeight T o S s) :
    (∀ trip : Fin levels.length → ℕ, (∀ k, trip k < (levels.get k).count) →
      (∑ k, if (levels.get k).dim = s then levelStep T o S (levels.get k) * trip k else 0) =
        spread (outerWeight T o S s) S (tileOrigin levels trip s)) ↔
      outerWeight T o S s = 1 ∨
        (∀ level ∈ levels, level.dim = s → 2 ≤ level.count → S ≤ level.extent →
          S ∣ level.extent) ∧
        (levels.map fun level => if level.dim = s ∧ level.extent < S then
          level.extent * (level.count - 1) else 0).sum < S := by
  classical
  have hblocks := spread_sum_iff hS hweight (Finset.univ.filter fun k => (levels.get k).dim = s)
    (fun k => (levels.get k).extent) (fun k => (levels.get k).count)
    fun k _ => (hnest.fits k).1
  have hlarge : (∀ k ∈ Finset.univ.filter (fun k => (levels.get k).dim = s),
      2 ≤ (levels.get k).count → S ≤ (levels.get k).extent → S ∣ (levels.get k).extent) ↔
      ∀ level ∈ levels, level.dim = s → 2 ≤ level.count → S ≤ level.extent →
        S ∣ level.extent := by
    simp only [Finset.mem_filter, Finset.mem_univ, true_and, forall_mem_iff_get]
  have hsmall : (∑ k ∈ (Finset.univ.filter fun k => (levels.get k).dim = s) with
      (levels.get k).extent < S, (levels.get k).extent * ((levels.get k).count - 1)) =
      (levels.map fun level => if level.dim = s ∧ level.extent < S then
        level.extent * (level.count - 1) else 0).sum := by
    rw [Finset.filter_filter, Finset.sum_filter]
    exact Fin.sum_univ_fun_getElem levels fun level =>
      if level.dim = s ∧ level.extent < S then level.extent * (level.count - 1) else 0
  rw [hlarge, hsmall] at hblocks
  rw [← hblocks]
  have hstep : ∀ trip : Fin levels.length → ℕ,
      (∑ k, if (levels.get k).dim = s then levelStep T o S (levels.get k) * trip k else 0) =
        ∑ k ∈ Finset.univ.filter (fun k => (levels.get k).dim = s),
          (if S ≤ (levels.get k).extent then outerWeight T o S s * (levels.get k).extent
            else (levels.get k).extent) * trip k := by
    intro trip
    rw [Finset.sum_filter]
    refine Finset.sum_congr rfl fun k _ => ?_
    split_ifs with hd hle
    · rw [levelStep, hd, if_pos hs, if_pos hle]
    · rw [levelStep, hd, if_pos hs, if_neg hle]
    · rfl
  have horigin : ∀ trip : Fin levels.length → ℕ, tileOrigin levels trip s =
      ∑ k ∈ Finset.univ.filter (fun k => (levels.get k).dim = s),
        (levels.get k).extent * trip k := fun trip => (Finset.sum_filter _ _).symm
  simp only [hstep, horigin]
  constructor
  · -- Trips of the other levels are free, so they are put to zero.
    intro h trip htrip
    have hzero := h (fun k => if (levels.get k).dim = s then trip k else 0) fun k => by
      split_ifs with hd
      · exact htrip k (Finset.mem_filter.mpr ⟨Finset.mem_univ k, hd⟩)
      · exact (hnest.fits k).1
    have hcongr : ∀ f : Fin levels.length → ℕ,
        (∑ k ∈ Finset.univ.filter (fun k => (levels.get k).dim = s),
          f k * if (levels.get k).dim = s then trip k else 0) =
          ∑ k ∈ Finset.univ.filter (fun k => (levels.get k).dim = s), f k * trip k :=
      fun f => Finset.sum_congr rfl fun k hk => by rw [if_pos (Finset.mem_filter.mp hk).2]
    rwa [hcongr, hcongr] at hzero
  · intro h trip htrip
    exact h trip fun k _ => htrip k

/-- Between the sticks and their elements lies the dimension that comes first in the order. -/
theorem outerWeight_stick_eq_one_iff (hs : o.stickDim = some s) :
    outerWeight T o S s = 1 ↔ ∀ d, o.dims.head? = some d → d = s ∨ T.size d = 1 := by
  have hnodup : o.dims.Nodup := o.perm.nodup_iff.mpr nodup_range
  have hsparse : o.sparse = false := by
    by_contra h
    rw [Bool.not_eq_false] at h
    simp [DimOrder.stickDim, DimOrder.toList, h] at hs
  cases hdims : o.dims with
  | nil => simp [DimOrder.stickDim, DimOrder.toList, hsparse, hdims] at hs
  | cons a l =>
    have hlist : o.toList = some a :: l.map some := by
      simp [DimOrder.toList, hsparse, hdims]
    have hdev : o.deviceDims = l.map some ++ [some a] := by simp [DimOrder.deviceDims, hlist]
    simp only [head?_cons, Option.some.injEq, forall_eq']
    rcases eq_nil_or_concat l with rfl | ⟨l, b, rfl⟩
    · obtain rfl : a = s := by simpa [DimOrder.stickDim, hlist] using hs
      simp [outerWeight, hdev, weight]
    · have hconcat : o.toList = (some a :: l.map some) ++ [some b] := by simp [hlist]
      obtain rfl : b = s := by
        rw [DimOrder.stickDim, hconcat, getLastD_concat] at hs
        exact Option.some_injective ℕ hs
      have hab : a ≠ b := by
        rw [hdims] at hnodup
        rintro rfl
        simp at hnodup
      have ha : a < T.rank := DimOrder.some_mem_toList.mp (by rw [hlist]; exact mem_cons_self)
      have hget : o.deviceDims[l.length]? = some (some b) := by simp [hdev]
      have hdrop := prod_drop_eq_weight (extent T o S) (nodup_deviceDims (by omega)) hget
      have hrest : o.deviceDims.drop (l.length + 1) = [some a] := by
        rw [hdev, drop_append]
        simp
      rw [hrest, map_singleton, prod_singleton,
        extent_of_ne_stick ha (fun h => hab (Option.some_injective ℕ (h.symm.trans hs)))] at hdrop
      rw [outerWeight, ← hdrop]
      simp [hab]

theorem outerWeight_pos (hS : 0 < S) (hrank : 0 < T.rank) (d : ℕ) : 0 < outerWeight T o S d := by
  refine weight_pos (fun h hmem => ?_) _
  cases h with
  | none => exact Nat.one_pos
  | some e =>
    have he := lt_of_some_mem hrank hmem
    have hpos := T.size_pos e he
    by_cases hs : o.stickDim = some e
    · rw [extent_stick he hs]
      exact Nat.div_pos (by omega) hS
    · rwa [extent_of_ne_stick he hs]

end Nest

/-- For every trip the coefficients lead to the first element of the tile. -/
def Lands {rank : ℕ} (o : DimOrder rank) (elemsPerStick : ℕ) (layout : SpyreTensorLayout)
    (levels : List TileLevel) (coeff : Fin levels.length → ℤ) : Prop :=
  ∀ trip : Fin levels.length → ℕ, (∀ k, trip k < (levels.get k).count) →
    ∑ k, coeff k * trip k =
      devicePosition o elemsPerStick layout (tileOrigin levels trip) -
        devicePosition o elemsPerStick layout fun _ => 0

section Main

variable {T : DenseTensor} {o : DimOrder T.rank} {S : ℕ} {levels : List TileLevel}

theorem devicePosition_zero (hrank : 0 < T.rank) :
    devicePosition o S (ofOrder T o S) (fun _ => 0) = 0 := by
  rw [devicePosition_eq hrank]
  refine Finset.sum_eq_zero fun d _ => ?_
  simp [spread]

/-- Only the stick dimension matters. -/
theorem lands_iff_stick (hrank : 0 < T.rank) (hS : 0 < S) (hnest : TileNest T levels)
    {coeff : Fin levels.length → ℤ}
    (hcoeff : ∀ k, deviceStep (ofOrder T o S)
      (((levels.get k).extent * T.hostStride (levels.get k).dim : ℕ) : ℚ) = coeff k) :
    Lands o S (ofOrder T o S) levels coeff ↔
      ∀ s, o.stickDim = some s → ∀ trip : Fin levels.length → ℕ,
        (∀ k, trip k < (levels.get k).count) →
        (∑ k, if (levels.get k).dim = s then levelStep T o S (levels.get k) * trip k else 0) =
          spread (outerWeight T o S s) S (tileOrigin levels trip s) := by
  have hsum : ∀ trip : Fin levels.length → ℕ, (∀ k, trip k < (levels.get k).count) →
      (∑ k, coeff k * trip k) = ∑ d ∈ Finset.range T.rank, ((∑ k,
        if (levels.get k).dim = d then levelStep T o S (levels.get k) * trip k
        else 0 : ℕ) : ℤ) := by
    intro trip htrip
    rw [sum_levels hnest]
    refine Finset.sum_congr rfl fun d _ => ?_
    push_cast
    refine Finset.sum_congr rfl fun k _ => ?_
    rw [coeff_mul_trip hS hnest (htrip k) (hcoeff k), Nat.cast_mul]
  have hother : ∀ (trip : Fin levels.length → ℕ) (d : ℕ), o.stickDim ≠ some d →
      (∑ k, if (levels.get k).dim = d then levelStep T o S (levels.get k) * trip k else 0) =
        if o.stickDim = some d then spread (outerWeight T o S d) S (tileOrigin levels trip d)
          else outerWeight T o S d * S * tileOrigin levels trip d := by
    intro trip d hd
    rw [if_neg hd, sum_levelStep_of_ne_stick hd]
  constructor
  · intro h s hs trip htrip
    have hs' : s ∈ Finset.range T.rank := Finset.mem_range.mpr (o.stickDim_lt hrank hs)
    have htotal := h trip htrip
    rw [hsum trip htrip, devicePosition_zero hrank, sub_zero, devicePosition_eq hrank,
      ← Finset.add_sum_erase _ _ hs', ← Finset.add_sum_erase _ _ hs', if_pos hs] at htotal
    have hrest : ∀ d ∈ (Finset.range T.rank).erase s, o.stickDim ≠ some d := by
      intro d hd h
      exact Finset.ne_of_mem_erase hd (Option.some_injective ℕ (h.symm.trans hs))
    rw [Finset.sum_congr rfl fun d hd => congrArg (Nat.cast (R := ℤ)) (hother trip d (hrest d hd)),
      add_left_inj] at htotal
    exact_mod_cast htotal
  · intro h trip htrip
    rw [hsum trip htrip, devicePosition_zero hrank, sub_zero, devicePosition_eq hrank]
    refine Finset.sum_congr rfl fun d _ => congrArg Nat.cast ?_
    by_cases hs : o.stickDim = some d
    · rw [if_pos hs, h d hs trip htrip]
    · exact hother trip d hs

end Main

/-- Whenever every level has a coefficient, the coefficients lead to the first element of every
tile, exactly when the tiles of the stick dimension are aligned. -/
theorem tile_advance_lands_iff (T : DenseTensor) (o : DimOrder T.rank) (elemsPerStick : ℕ)
    {layout : SpyreTensorLayout}
    (hinit : init T.hostSize T.hostStrides elemsPerStick o.toList = .ok layout) (offset : ℤ)
    {levels : List TileLevel} (hnest : TileNest T levels) :
    (∀ coeff : Fin levels.length → ℤ,
      (∀ k : Fin levels.length, coeffThroughFloor
        (generalTileAdvance layout T.hostStrides offset levels) k = .ok (coeff k)) →
      Lands o elemsPerStick layout levels coeff) ↔ StickAligned T o elemsPerStick levels := by
  have hS : 0 < elemsPerStick := elemsPerStick_pos hinit
  rcases Nat.eq_zero_or_pos T.rank with hzero | hrank
  · -- A scalar has no dimension to tile.
    obtain rfl : levels = [] := by
      rw [eq_nil_iff_forall_not_mem]
      intro level hmem
      have := hnest.dim_lt level hmem
      omega
    have hdims : o.dims = [] := by
      rw [← length_eq_zero_iff, o.perm.length_eq, length_range, hzero]
    refine ⟨fun _ s _ => Or.inl (by simp [hdims]), fun _ coeff _ trip _ => ?_⟩
    have horigin : tileOrigin [] trip = fun _ => 0 := rfl
    rw [horigin, sub_self]
    rfl
  · rw [init_eq hrank hS, Except.ok.injEq] at hinit
    subst hinit
    have hstep : ∀ k : Fin levels.length, ∃ c : ℤ, deviceStep (ofOrder T o elemsPerStick)
        (((levels.get k).extent * T.hostStride (levels.get k).dim : ℕ) : ℚ) = c := by
      intro k
      obtain ⟨hcount, hextent, hfit⟩ := hnest.fits k
      refine exists_deviceStep_eq hS (hnest.dim_lt _ (get_mem levels k)) hextent ?_
      exact (Nat.le_mul_of_pos_left _ hcount).trans hfit
    choose coeff hcoeff using hstep
    have hok : ∀ k : Fin levels.length, coeffThroughFloor
        (generalTileAdvance (ofOrder T o elemsPerStick) T.hostStrides offset levels) k =
          .ok (coeff k) := by
      intro k
      refine coeffThroughFloor_eq k ?_
      rw [DenseTensor.hostStrides_getD (hnest.dim_lt _ (get_mem levels k)), hcoeff k]
    have honly : (∀ c : Fin levels.length → ℤ, (∀ k : Fin levels.length, coeffThroughFloor
        (generalTileAdvance (ofOrder T o elemsPerStick) T.hostStrides offset levels) k =
          .ok (c k)) → Lands o elemsPerStick (ofOrder T o elemsPerStick) levels c) ↔
        Lands o elemsPerStick (ofOrder T o elemsPerStick) levels coeff := by
      refine ⟨fun h => h coeff hok, fun h c hc => ?_⟩
      have hcc : c = coeff := by
        ext k
        exact Except.ok.inj ((hc k).symm.trans (hok k))
      rwa [hcc]
    rw [honly, lands_iff_stick hrank hS hnest hcoeff]
    refine forall_congr' fun s => forall_congr' fun hs => ?_
    rw [sum_levelStep_stick_iff hS hnest hs (outerWeight_pos hS hrank s),
      outerWeight_stick_eq_one_iff hs]

/-- A tensor of `4` rows of `128` elements. -/
def rows : DenseTensor where
  rank := 2
  size := fun d => if d = 0 then 4 else 128
  order := [0, 1]
  order_perm := by decide
  size_pos := by decide

/-- The generic order, with the rows cut into sticks. -/
def rowsOrder : DimOrder rows.rank where
  dims := [0, 1]
  perm := by decide
  sparse := false

/-- The device layout of the rows : two sticks, four rows, and the elements of a stick. -/
def rowsLayout : SpyreTensorLayout :=
  ⟨[2, 4, 64], [64, 128, 1]⟩

theorem init_rows : init rows.hostSize rows.hostStrides 64 rowsOrder.toList = .ok rowsLayout :=
  rfl

/-- Tiles of half a stick. The coefficient is accepted, and the third tile, the first one of the
second stick, is looked for right after the first stick. -/
theorem half_stick_tile_misses :
    init rows.hostSize rows.hostStrides 64 rowsOrder.toList = .ok rowsLayout ∧
      TileNest rows [⟨1, 32, 4⟩] ∧
      coeffThroughFloor (generalTileAdvance rowsLayout rows.hostStrides 0 [⟨1, 32, 4⟩]) 0 =
        .ok 32 ∧
      ¬Lands rowsOrder 64 rowsLayout [⟨1, 32, 4⟩] (fun _ => 32) := by
  refine ⟨init_rows, ⟨by decide, rfl, trivial⟩, by decide +kernel, fun h => ?_⟩
  have hthird := h (fun _ => 2) (by decide)
  revert hthird
  decide +kernel

/-- Tiles of a whole stick. -/
theorem tile_advance_lands_iff_whole_stick :
    coeffThroughFloor (generalTileAdvance rowsLayout rows.hostStrides 0 [⟨1, 64, 2⟩]) 0 =
        .ok 256 ∧
      Lands rowsOrder 64 rowsLayout [⟨1, 64, 2⟩] (fun _ => 256) := by
  have hcoeff : coeffThroughFloor
      (generalTileAdvance rowsLayout rows.hostStrides 0 [⟨1, 64, 2⟩]) 0 = .ok 256 := by
    decide +kernel
  have haligned : StickAligned rows rowsOrder 64 [⟨1, 64, 2⟩] := by
    intro s hs
    obtain rfl : 1 = s := Option.some_injective ℕ hs
    exact Or.inr (by decide)
  have hnest : TileNest rows [⟨1, 64, 2⟩] := ⟨by decide, rfl, trivial⟩
  refine ⟨hcoeff, (tile_advance_lands_iff rows rowsOrder 64 init_rows 0 hnest).mpr haligned _
    fun k => ?_⟩
  fin_cases k
  exact hcoeff

end Tiling

end TorchSpyre
