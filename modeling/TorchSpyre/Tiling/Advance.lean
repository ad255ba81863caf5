import Mathlib
import TorchSpyre.Layout.Tensor

/-!
# Tile advances

A nest of counted loops tiles the host dimensions of a tensor. `_general_tile_advance` turns
the host offset of each level into device elements and sums over the levels, and
`coeff_through_floor` reads one coefficient per level off the sum. The tile of a trip is then
expected at the sum of the coefficients times the trip indices.

`tiling_expr_to_device_expr` guesses the device dimension a step belongs to : the largest
stride that is not above the step, among the device dimensions of size above one. In a dense
tensor the guess is right for a dimension that is not cut into sticks
(`deviceStep_of_ne_stick`). The stick dimension has two device dimensions, and the guess is
one of them (`deviceStep_stick`), so a step moves by whole sticks or within a stick. A
coefficient is never refused (`exists_deviceStep_eq`) : the product of the inner sizes has
the size of the stick as a factor, so it cancels the division by the stride of the sticks.
-/

open List

namespace TorchSpyre

open Strided

namespace Tiling

/-! ## Tile offset expressions -/

/-- The term `⌊coeff * sym⌋`, which is a product when the coefficient is an integer. -/
structure SymTerm where
  sym : ℕ
  coeff : ℚ
deriving DecidableEq

/-- A constant and a sum of terms. -/
structure TileExpr where
  const : ℤ
  terms : List SymTerm
deriving DecidableEq

/-- The coefficient of the first term of `sym`. -/
def TileExpr.ownCoeff (e : TileExpr) (sym : ℕ) : Option ℚ :=
  (e.terms.find? fun t => t.sym = sym).map SymTerm.coeff

/-- The stride of the device dimension chosen so far. -/
def chosenStride (layout : SpyreTensorLayout) : Option ℕ → ℤ
  | none => 0
  | some j => layout.strideMap.getD j 0

/-- The test for device dimension `i`, when `j` is chosen so far. -/
def Takes (layout : SpyreTensorLayout) (step : ℚ) (j : Option ℕ) (i : ℕ) : Prop :=
  1 < layout.deviceSize.getD i 0 ∧ chosenStride layout j < layout.strideMap.getD i 0 ∧
    (layout.strideMap.getD i 0 : ℚ) ≤ step

instance (layout : SpyreTensorLayout) (step : ℚ) (j : Option ℕ) (i : ℕ) :
    Decidable (Takes layout step j i) :=
  inferInstanceAs (Decidable (_ ∧ _ ∧ _))

/-- The device dimension the step is given to, among the first `n`. -/
def tileDim (layout : SpyreTensorLayout) (step : ℚ) : ℕ → Option ℕ
  | 0 => none
  | i + 1 =>
    let j := tileDim layout step i
    if Takes layout step j i then some i else j

/-- What one trip moves in device elements. Without a dimension for it the source falls back
on index `-1` : the whole product of the sizes, and the last stride. -/
def deviceStep (layout : SpyreTensorLayout) (step : ℚ) : ℚ :=
  match tileDim layout step layout.strideMap.length with
  | none => layout.deviceSize.prod * step / layout.strideMap.getLastD 0
  | some j => (layout.deviceSize.drop (j + 1)).prod * step / layout.strideMap.getD j 0

/-- `tiling_expr_to_device_expr`. -/
def tilingExprToDeviceExpr (layout : SpyreTensorLayout) (index : TileExpr) : TileExpr where
  const := 0
  terms := (index.terms.map SymTerm.sym).dedup.map fun v =>
    ⟨v, deviceStep layout ((index.ownCoeff v).getD 0)⟩

/-- The coefficient that was found for the symbol is no integer. -/
structure Unsupported where
  coeff : ℚ
  sym : ℕ
deriving DecidableEq

/-- `coeff_through_floor`. -/
def coeffThroughFloor (e : TileExpr) (sym : ℕ) : Except Unsupported ℤ :=
  match e.ownCoeff sym with
  | none => .ok 0
  | some coeff => if coeff.den = 1 then .ok coeff.num else .error ⟨coeff, sym⟩

/-! ## Loops over tiles -/

/-- A loop over the tiles of a host dimension : the extent of a tile, and how many there
are. -/
structure TileLevel where
  dim : ℕ
  extent : ℕ
  count : ℕ
deriving DecidableEq

/-- The levels of a nest, outermost first, each dividing what the levels around it leave of
its dimension. -/
def Divides (size : ℕ → ℕ) : List TileLevel → Prop
  | [] => True
  | level :: levels =>
    level.count * level.extent = size level.dim ∧
      Divides (Function.update size level.dim level.extent) levels

/-- The loops tile host dimensions of the tensor. -/
structure TileNest (T : DenseTensor) (levels : List TileLevel) : Prop where
  dim_lt : ∀ level ∈ levels, level.dim < T.rank
  divides : Divides T.size levels

/-- The host offset of a level, in which every other loop symbol is zero. `offset` is the
constant of the read. -/
def hostExpr (hostStrides : List ℕ) (offset : ℤ) (level : TileLevel) (sym : ℕ) : TileExpr where
  const := offset
  terms := [⟨sym, (level.extent * hostStrides.getD level.dim 0 : ℕ)⟩]

/-- The sum `_general_tile_advance` builds. Level `k` has the symbol `k`. -/
def generalTileAdvance (layout : SpyreTensorLayout) (hostStrides : List ℕ) (offset : ℤ)
    (levels : List TileLevel) : TileExpr where
  const := 0
  terms := levels.zipIdx.flatMap fun p =>
    (tilingExprToDeviceExpr layout (hostExpr hostStrides offset p.1 p.2)).terms

/-- The host coordinates of the first element of the tile of a trip. -/
def tileOrigin (levels : List TileLevel) (trip : Fin levels.length → ℕ) (d : ℕ) : ℕ :=
  ∑ k : Fin levels.length, if (levels.get k).dim = d then (levels.get k).extent * trip k else 0

/-! ## Device positions -/

/-- The device coordinates of a host element, the sticks of the stick dimension counted by its
outer coordinate. -/
def deviceCoords {rank : ℕ} (o : DimOrder rank) (elemsPerStick : ℕ) (x : ℕ → ℕ) : List ℤ :=
  (o.deviceDims.map fun
    | none => 0
    | some d => ((if o.stickDim = some d then x d / elemsPerStick else x d : ℕ) : ℤ)) ++
    [match o.stickDim with
      | none => 0
      | some d => ((x d % elemsPerStick : ℕ) : ℤ)]

/-- The linear device position of a host element. -/
def devicePosition {rank : ℕ} (o : DimOrder rank) (elemsPerStick : ℕ) (layout : SpyreTensorLayout)
    (x : ℕ → ℕ) : ℤ :=
  linearAddress layout.deviceSize (deviceCoords o elemsPerStick x)

/-! ## The guess -/

section Guess

variable {layout : SpyreTensorLayout} {step : ℚ}

/-- The choice among the first `n` device dimensions : none of them is a candidate, or the
chosen one is and has the largest stride. -/
def Best (layout : SpyreTensorLayout) (step : ℚ) (n : ℕ) : Option ℕ → Prop
  | none => ∀ i < n, ¬Takes layout step none i
  | some j => j < n ∧ Takes layout step none j ∧
      ∀ i < n, Takes layout step none i → layout.strideMap.getD i 0 ≤ layout.strideMap.getD j 0

theorem best_tileDim (n : ℕ) : Best layout step n (tileDim layout step n) := by
  induction n with
  | zero => exact fun i hi => absurd hi (Nat.not_lt_zero i)
  | succ n ih =>
    rw [tileDim]
    cases hj : tileDim layout step n with
    | none =>
      rw [hj] at ih
      by_cases hn : Takes layout step none n
      · rw [if_pos hn]
        refine ⟨Nat.lt_succ_self n, hn, fun i hi hc => ?_⟩
        rcases Nat.lt_succ_iff_lt_or_eq.mp hi with hi | rfl
        · exact absurd hc (ih i hi)
        · exact le_rfl
      · rw [if_neg hn]
        intro i hi
        rcases Nat.lt_succ_iff_lt_or_eq.mp hi with hi | rfl
        · exact ih i hi
        · exact hn
    | some j =>
      rw [hj] at ih
      obtain ⟨hjn, hc, hmax⟩ := ih
      by_cases hn : Takes layout step (some j) n
      · rw [if_pos hn]
        refine ⟨Nat.lt_succ_self n, ⟨hn.1, hc.2.1.trans hn.2.1, hn.2.2⟩, fun i hi hi' => ?_⟩
        rcases Nat.lt_succ_iff_lt_or_eq.mp hi with hi | rfl
        · exact (hmax i hi hi').trans hn.2.1.le
        · exact le_rfl
      · rw [if_neg hn]
        refine ⟨Nat.lt_succ_of_lt hjn, hc, fun i hi hi' => ?_⟩
        rcases Nat.lt_succ_iff_lt_or_eq.mp hi with hi | rfl
        · exact hmax i hi hi'
        · exact not_lt.mp fun hlt => hn ⟨hi'.1, hlt, hi'.2.2⟩

/-- A candidate above all others is chosen. -/
theorem tileDim_eq {n j : ℕ} (hj : j < n) (hc : Takes layout step none j)
    (hmax : ∀ i < n, Takes layout step none i → i ≠ j →
      layout.strideMap.getD i 0 < layout.strideMap.getD j 0) :
    tileDim layout step n = some j := by
  have hbest : Best layout step n (tileDim layout step n) := best_tileDim n
  cases hi : tileDim layout step n with
  | none =>
    rw [hi] at hbest
    exact absurd hc (hbest j hj)
  | some i =>
    rw [hi] at hbest
    obtain ⟨hin, hci, hle⟩ := hbest
    by_contra hne
    have hij : i ≠ j := fun h => hne (congrArg some h)
    exact absurd (hle j hj hc) (not_le.mpr (hmax i hin hci hij))

/-- The step of a chosen dimension whose stride divides the inner sizes times the step. -/
theorem deviceStep_eq {j c step : ℕ} (hj : tileDim layout step layout.strideMap.length = some j)
    (hpos : 0 < layout.strideMap.getD j 0)
    (hc : (((layout.deviceSize.drop (j + 1)).prod * step : ℕ) : ℤ) =
      c * layout.strideMap.getD j 0) :
    deviceStep layout step = c := by
  have hne : ((layout.strideMap.getD j 0 : ℤ) : ℚ) ≠ 0 := by exact_mod_cast hpos.ne'
  simp only [deviceStep, hj]
  generalize (layout.deviceSize.drop (j + 1)).prod = inner at hc ⊢
  have hcast : (inner : ℚ) * step = c * (layout.strideMap.getD j 0 : ℤ) := by exact_mod_cast hc
  rw [hcast, mul_div_assoc, div_self hne, mul_one]

end Guess

/-! ## The device dimensions of a dense tensor -/

section Dense

open SpyreTensorLayout

variable {T : DenseTensor} {o : DimOrder T.rank} {S : ℕ}

/-- How far apart two sticks are, in sticks : the sizes of the device dimensions after the
dimension. -/
def outerWeight (T : DenseTensor) (o : DimOrder T.rank) (S d : ℕ) : ℕ :=
  weight (extent T o S) o.deviceDims (some d)

variable {d i step t : ℕ}

theorem extent_of_ne_stick (hd : d < T.rank) (hs : o.stickDim ≠ some d) :
    extent T o S (some d) = T.size d := by
  rw [extent, computeExtent, if_neg hs, DenseTensor.hostSize_getD hd]

theorem extent_stick (hd : d < T.rank) (hs : o.stickDim = some d) :
    extent T o S (some d) = (T.size d + S - 1) / S := by
  rw [extent, computeExtent, if_pos hs, DenseTensor.hostSize_getD hd]

/-- There is more than one stick when the dimension does not fit in one. -/
theorem one_lt_extent_stick_iff (hS : 0 < S) (hd : d < T.rank) (hs : o.stickDim = some d) :
    1 < extent T o S (some d) ↔ S < T.size d := by
  have hpos := T.size_pos d hd
  rw [extent_stick hd hs, ← Nat.succ_le_iff, Nat.le_div_iff_mul_le hS]
  omega

theorem nodup_deviceDims (hrank : 0 < T.rank) : o.deviceDims.Nodup :=
  (o.deviceDims_perm hrank).nodup_iff.mpr o.nodup_toList

theorem some_mem_deviceDims (hd : d < T.rank) : some d ∈ o.deviceDims :=
  (o.deviceDims_perm (by omega)).mem_iff.mpr (DimOrder.some_mem_toList.mpr hd)

theorem lt_of_some_mem (hrank : 0 < T.rank) (h : some d ∈ o.deviceDims) : d < T.rank :=
  DimOrder.some_mem_toList.mp ((o.deviceDims_perm hrank).mem_iff.mp h)

/-- Device dimension `i` is that of `h`. -/
structure IsOuter (T : DenseTensor) (o : DimOrder T.rank) (S i : ℕ) (h : Option ℕ) : Prop where
  get : o.deviceDims[i]? = some h
  size : (ofOrder T o S).deviceSize.getD i 0 = extent T o S h
  stride : (ofOrder T o S).strideMap.getD i 0 = outerStride T o S h
  inner : ((ofOrder T o S).deviceSize.drop (i + 1)).prod = weight (extent T o S) o.deviceDims h * S

theorem isOuter_of_getElem? (hrank : 0 < T.rank) {h : Option ℕ} (hi : o.deviceDims[i]? = some h) :
    IsOuter T o S i h := by
  obtain ⟨hlt, hget⟩ := List.getElem?_eq_some_iff.mp hi
  have hdrop := prod_drop_eq_weight (extent T o S) (nodup_deviceDims hrank) hi
  refine ⟨hi, ?_, ?_, ?_⟩
  · simp [ofOrder, getElem?_append, hlt, hget]
  · simp [ofOrder, getElem?_append, hlt, hget]
  · have hlen : i + 1 ≤ (o.deviceDims.map (extent T o S)).length := by
      rw [length_map]
      omega
    rw [ofOrder, drop_append_of_le_length hlen, prod_append, ← map_drop, hdrop, prod_singleton]

theorem stick_size : (ofOrder T o S).deviceSize.getD o.deviceDims.length 0 = S := by
  simp [ofOrder]

theorem stick_stride : (ofOrder T o S).strideMap.getD o.deviceDims.length 0 = stickStride T o := by
  simp [ofOrder]

theorem stick_inner :
    ((ofOrder T o S).deviceSize.drop (o.deviceDims.length + 1)).prod = 1 := by
  rw [drop_eq_nil_of_le (by simp [ofOrder]), prod_nil]

theorem length_strideMap : (ofOrder T o S).strideMap.length = o.deviceDims.length + 1 := by
  simp [ofOrder]

/-- The device dimensions a step can be given to : dimension `i` belongs to the host dimension
`d`, and its stride is `m` times that of `d`. -/
inductive Place (T : DenseTensor) (o : DimOrder T.rank) (S : ℕ) : ℕ → ℕ → ℕ → Prop
  | whole {i d : ℕ} (hd : d < T.rank) (hsize : 1 < T.size d) (hs : o.stickDim ≠ some d)
      (hi : IsOuter T o S i (some d)) : Place T o S i d 1
  | sticks {i d : ℕ} (hd : d < T.rank) (hsize : S < T.size d) (hs : o.stickDim = some d)
      (hi : IsOuter T o S i (some d)) : Place T o S i d S
  | stick {d : ℕ} (hd : d < T.rank) (hsize : 1 < T.size d) (hs : o.stickDim = some d)
      (hS : 1 < S) : Place T o S o.deviceDims.length d 1

namespace Place

variable {i j d e m n : ℕ}

theorem dim_lt (h : Place T o S i d m) : d < T.rank := by
  cases h <;> assumption

theorem lt_size (h : Place T o S i d m) : m < T.size d := by
  cases h <;> assumption

theorem pos (hS : 0 < S) (h : Place T o S i d m) : 0 < m := by
  cases h <;> omega

theorem stride (hS : 0 < S) (h : Place T o S i d m) :
    (ofOrder T o S).strideMap.getD i 0 = ((T.hostStride d * m : ℕ) : ℤ) := by
  cases h with
  | whole hd hsize hs hi =>
    rw [hi.stride, outerStride, if_neg (by omega), if_neg hs, mul_one]
  | sticks hd hsize hs hi =>
    rw [hi.stride, outerStride, if_neg (by omega), if_pos hs, min_eq_left hsize.le]
  | stick hd hsize hs hlt =>
    rw [stick_stride, stickStride, hs]
    dsimp only
    rw [if_neg (by omega), mul_one]

theorem one_lt_size (hS : 0 < S) (h : Place T o S i d m) :
    1 < (ofOrder T o S).deviceSize.getD i 0 := by
  cases h with
  | whole hd hsize hs hi => rwa [hi.size, extent_of_ne_stick hd hs]
  | sticks hd hsize hs hi => rwa [hi.size, one_lt_extent_stick_iff hS hd hs]
  | stick hd hsize hs hlt => rwa [stick_size]

theorem index_lt (h : Place T o S i d m) : i < (ofOrder T o S).strideMap.length := by
  rw [length_strideMap]
  cases h with
  | whole hd hsize hs hi =>
    have := (List.getElem?_eq_some_iff.mp hi.get).1
    omega
  | sticks hd hsize hs hi =>
    have := (List.getElem?_eq_some_iff.mp hi.get).1
    omega
  | stick hd hsize hs hlt => omega

/-- A step of at least its stride can be given to the dimension. -/
theorem takes (hS : 0 < S) (h : Place T o S i d m) {step : ℕ} (hle : T.hostStride d * m ≤ step) :
    Takes (ofOrder T o S) step none i := by
  refine ⟨h.one_lt_size hS, ?_, ?_⟩
  · rw [h.stride hS, chosenStride]
    exact_mod_cast Nat.mul_pos (DenseTensor.hostStride_pos d) (h.pos hS)
  · rw [h.stride hS]
    exact_mod_cast hle

/-- The dimension is determined by the host dimension and the stride. -/
theorem index_eq (hi : Place T o S i d m) (hj : Place T o S j d n) (hmn : m = n) : i = j := by
  have hinj : ∀ {i j : ℕ}, IsOuter T o S i (some d) → IsOuter T o S j (some d) → i = j := by
    intro i j hi' hj'
    have hlt := (List.getElem?_eq_some_iff.mp hi'.get).1
    have hnodup : o.deviceDims.Nodup := nodup_deviceDims (Nat.zero_lt_of_lt hi.dim_lt)
    exact (getElem?_inj hlt hnodup).mp (hi'.get.trans hj'.get.symm)
  cases hi <;> cases hj <;> first | exact hinj ‹_› ‹_› | contradiction | omega

end Place

/-- Every device dimension a step can be given to is a place. -/
theorem place_of_takes (hrank : 0 < T.rank) (hS : 0 < S) (hi : i < (ofOrder T o S).strideMap.length)
    (h : Takes (ofOrder T o S) step none i) :
    ∃ d m, Place T o S i d m ∧ T.hostStride d * m ≤ step := by
  obtain ⟨hsize, hpos, hle⟩ := h
  rw [chosenStride] at hpos
  suffices hplace : ∃ d m, Place T o S i d m by
    obtain ⟨d, m, hplace⟩ := hplace
    rw [hplace.stride hS] at hle
    exact ⟨d, m, hplace, by exact_mod_cast hle⟩
  rw [length_strideMap] at hi
  rcases Nat.lt_succ_iff_lt_or_eq.mp hi with hlt | rfl
  · have hi : IsOuter T o S i o.deviceDims[i] := isOuter_of_getElem? hrank (by simp [hlt])
    rw [hi.stride] at hpos
    rw [hi.size] at hsize
    cases hget : o.deviceDims[i] with
    | none => simp [hget, outerStride] at hpos
    | some d =>
      rw [hget] at hi hpos hsize
      have hd : d < T.rank := lt_of_some_mem hrank (mem_of_getElem? hi.get)
      have hone : T.size d ≠ 1 := fun h => by simp [outerStride, h] at hpos
      have := T.size_pos d hd
      by_cases hs : o.stickDim = some d
      · exact ⟨d, S, .sticks hd ((one_lt_extent_stick_iff hS hd hs).mp hsize) hs hi⟩
      · exact ⟨d, 1, .whole hd (by omega) hs hi⟩
  · rw [stick_stride] at hpos
    rw [stick_size] at hsize
    cases hs : o.stickDim with
    | none => simp [stickStride, hs] at hpos
    | some d =>
      have hd : d < T.rank := o.stickDim_lt hrank hs
      have hone : T.size d ≠ 1 := fun h => by simp [stickStride, hs, h] at hpos
      have := T.size_pos d hd
      exact ⟨d, 1, .stick hd (by omega) hs hsize⟩

/-- Every dimension of size above one has a place that takes its steps. -/
theorem exists_place (hS : 0 < S) (hd : d < T.rank) (hsize : 1 < T.size d) :
    ∃ i, Place T o S i d 1 := by
  have hrank : 0 < T.rank := by omega
  obtain ⟨i, hi⟩ := mem_iff_getElem?.mp (some_mem_deviceDims (o := o) hd)
  have hi : IsOuter T o S i (some d) := isOuter_of_getElem? hrank hi
  by_cases hs : o.stickDim = some d
  · rcases Nat.lt_or_ge 1 S with hlt | hge
    · exact ⟨_, .stick hd hsize hs hlt⟩
    · obtain rfl : S = 1 := by omega
      exact ⟨i, .sticks hd hsize hs hi⟩
  · exact ⟨i, .whole hd hsize hs hi⟩

/-- A step of a tile of `d`, smaller than `d` itself, is given to the place of `d` with the
largest stride that the tile reaches. -/
theorem tileDim_eq_place (hS : 0 < S) {m : ℕ} (hi : Place T o S i d m) (hmt : m ≤ t)
    (ht : t < T.size d) (hown : ∀ j n, Place T o S j d n → n ≤ t → n ≤ m) :
    tileDim (ofOrder T o S) ((t * T.hostStride d : ℕ) : ℚ) (ofOrder T o S).strideMap.length =
      some i := by
  have hrank : 0 < T.rank := Nat.zero_lt_of_lt hi.dim_lt
  have hstep : T.hostStride d * m ≤ t * T.hostStride d := by
    rw [mul_comm]
    exact Nat.mul_le_mul_right _ hmt
  refine tileDim_eq hi.index_lt (hi.takes hS hstep) fun j hj htakes hji => ?_
  obtain ⟨e, n, hplace, hle⟩ := place_of_takes hrank hS hj htakes
  rw [hplace.stride hS, hi.stride hS]
  have hpos := DenseTensor.hostStride_pos (T := T) d
  by_cases hed : e = d
  · subst hed
    have hnt : n ≤ t := by
      rw [mul_comm] at hle
      exact Nat.le_of_mul_le_mul_right hle hpos
    have hnm : n ≠ m := fun h => hji (hplace.index_eq hi h)
    have := hown j n hplace hnt
    exact_mod_cast Nat.mul_lt_mul_of_pos_left (by omega) hpos
  · rcases DenseTensor.span_dvd_hostStride hplace.dim_lt hi.dim_lt hed with hdvd | hdvd
    · -- `e` lies inside `d` : its strides are below that of `d`.
      have hspan := Nat.le_of_dvd hpos hdvd
      have hlt : T.hostStride e * n < T.size e * T.hostStride e := by
        rw [mul_comm]
        exact Nat.mul_lt_mul_of_pos_right hplace.lt_size (DenseTensor.hostStride_pos e)
      have hm : T.hostStride d ≤ T.hostStride d * m := Nat.le_mul_of_pos_right _ (hi.pos hS)
      exact_mod_cast (hlt.trans_le hspan).trans_le hm
    · -- `d` lies inside `e` : the strides of `e` are above the step.
      have hspan := Nat.le_of_dvd (DenseTensor.hostStride_pos e) hdvd
      have hlt : t * T.hostStride d < T.size d * T.hostStride d :=
        Nat.mul_lt_mul_of_pos_right ht hpos
      have hn : T.hostStride e ≤ T.hostStride e * n := Nat.le_mul_of_pos_right _ (hplace.pos hS)
      omega

/-- A tile of a dimension that is not cut into sticks moves along its device dimension. -/
theorem deviceStep_of_ne_stick (hS : 0 < S) (hd : d < T.rank) (hs : o.stickDim ≠ some d)
    (ht : 0 < t) (htd : t < T.size d) :
    deviceStep (ofOrder T o S) ((t * T.hostStride d : ℕ) : ℚ) =
      ((outerWeight T o S d * S * t : ℕ) : ℚ) := by
  have hsize : 1 < T.size d := by omega
  obtain ⟨i, hi⟩ := exists_place (o := o) hS hd hsize
  have hinner : ((ofOrder T o S).deviceSize.drop (i + 1)).prod = outerWeight T o S d * S := by
    cases hi with
    | whole _ _ _ hi => exact hi.inner
    | sticks _ _ h _ => exact absurd h hs
    | stick _ _ h _ => exact absurd h hs
  have hdim := tileDim_eq_place hS hi ht htd fun j n hj _ => by
    cases hj with
    | whole _ _ _ _ => exact le_rfl
    | sticks _ _ h _ => exact absurd h hs
    | stick _ _ h _ => exact le_rfl
  refine deviceStep_eq hdim ?_ ?_
  · rw [hi.stride hS]
    exact_mod_cast Nat.mul_pos (DenseTensor.hostStride_pos d) Nat.one_pos
  · rw [hinner, hi.stride hS]
    push_cast
    ring

/-- A tile of the stick dimension moves by whole sticks when it is at least a stick, and within
the stick otherwise. -/
theorem deviceStep_stick (hS : 0 < S) (hd : d < T.rank) (hs : o.stickDim = some d) (ht : 0 < t)
    (htd : t < T.size d) :
    deviceStep (ofOrder T o S) ((t * T.hostStride d : ℕ) : ℚ) =
      ((if S ≤ t then outerWeight T o S d * t else t : ℕ) : ℚ) := by
  have hrank : 0 < T.rank := by omega
  have hpos := DenseTensor.hostStride_pos (T := T) d
  split_ifs with hle
  · obtain ⟨i, hget⟩ := mem_iff_getElem?.mp (some_mem_deviceDims (o := o) hd)
    have hi : IsOuter T o S i (some d) := isOuter_of_getElem? hrank hget
    have hplace : Place T o S i d S := .sticks hd (by omega) hs hi
    have hdim := tileDim_eq_place hS hplace hle htd fun j n hj _ => by
      cases hj with
      | whole _ _ h _ => exact absurd hs h
      | sticks _ _ _ _ => exact le_rfl
      | stick _ _ _ h => exact h.le
    refine deviceStep_eq hdim ?_ ?_
    · rw [hplace.stride hS]
      exact_mod_cast Nat.mul_pos hpos hS
    · rw [hi.inner, hplace.stride hS, outerWeight]
      push_cast
      ring
  · have hplace : Place T o S o.deviceDims.length d 1 := .stick hd (by omega) hs (by omega)
    have hdim := tileDim_eq_place hS hplace ht htd fun j n hj hn => by
      cases hj with
      | whole _ _ _ _ => exact le_rfl
      | sticks _ _ _ _ => omega
      | stick _ _ _ _ => exact le_rfl
    refine deviceStep_eq hdim ?_ ?_
    · rw [hplace.stride hS]
      exact_mod_cast Nat.mul_pos hpos Nat.one_pos
    · rw [stick_inner, hplace.stride hS]
      push_cast
      ring

/-- The stride of a dimension divides a step it does not exceed. -/
theorem hostStride_dvd_step {e : ℕ} (hd : d < T.rank) (he : e < T.rank) (ht : t ≤ T.size d)
    (hle : T.hostStride e ≤ t * T.hostStride d) : T.hostStride e ∣ t * T.hostStride d := by
  by_cases hed : e = d
  · exact hed ▸ Dvd.intro_left t rfl
  · rcases DenseTensor.span_dvd_hostStride he hd hed with hdvd | hdvd
    · exact Dvd.dvd.mul_left (dvd_of_mul_left_dvd hdvd) t
    · have hspan := Nat.le_of_dvd (DenseTensor.hostStride_pos e) hdvd
      have hstep : t * T.hostStride d ≤ T.size d * T.hostStride d := Nat.mul_le_mul_right _ ht
      rw [show T.hostStride e = t * T.hostStride d by omega]

/-- Some dimension of size above one has stride one. -/
theorem exists_hostStride_eq_one {s : ℕ} (hs : s < T.rank) (hsize : T.size s ≠ 1) :
    ∃ d < T.rank, 1 < T.size d ∧ T.hostStride d = 1 := by
  have hnodup : T.order.Nodup := T.order_perm.nodup_iff.mpr nodup_range
  obtain ⟨d, hd, hne, hone⟩ := exists_weight_eq_one hnodup
    (⟨s, DenseTensor.mem_order.mpr hs, hsize⟩ : ∃ a ∈ T.order, T.size a ≠ 1)
  have hd := DenseTensor.mem_order.mp hd
  have := T.size_pos d hd
  exact ⟨d, hd, by omega, hone⟩

/-- Without a dimension for the step, every host dimension has size one, and so has the stick
dimension : the last stride is `-1`. -/
theorem stickStride_of_none (hrank : 0 < T.rank) (hS : 0 < S) (hstep : 0 < step)
    (h : tileDim (ofOrder T o S) step (ofOrder T o S).strideMap.length = none) :
    stickStride T o = -1 := by
  have hbest : Best (ofOrder T o S) step _ _ := best_tileDim (ofOrder T o S).strideMap.length
  rw [h] at hbest
  cases hs : o.stickDim with
  | none => simp [stickStride, hs]
  | some s =>
    by_cases hsize : T.size s = 1
    · simp [stickStride, hs, hsize]
    · obtain ⟨d, hd, hlt, hone⟩ := exists_hostStride_eq_one (o.stickDim_lt hrank hs) hsize
      obtain ⟨i, hi⟩ := exists_place (o := o) hS hd hlt
      exact absurd (hi.takes hS (by omega)) (hbest i hi.index_lt)

/-- The step of a tile is always a whole number of device elements. -/
theorem exists_deviceStep_eq (hS : 0 < S) (hd : d < T.rank) (ht : 0 < t) (htd : t ≤ T.size d) :
    ∃ c : ℤ, deviceStep (ofOrder T o S) ((t * T.hostStride d : ℕ) : ℚ) = c := by
  have hrank : 0 < T.rank := by omega
  have hstep : 0 < t * T.hostStride d := Nat.mul_pos ht (DenseTensor.hostStride_pos d)
  cases hj : tileDim (ofOrder T o S) ((t * T.hostStride d : ℕ) : ℚ)
      (ofOrder T o S).strideMap.length with
  | none =>
    have hlast : (ofOrder T o S).strideMap.getLastD 0 = -1 := by
      rw [← stickStride_of_none hrank hS hstep hj]
      simp [ofOrder]
    refine ⟨-((ofOrder T o S).deviceSize.prod * (t * T.hostStride d) : ℕ), ?_⟩
    simp only [deviceStep, hj, hlast]
    generalize (ofOrder T o S).deviceSize.prod = inner
    push_cast
    ring
  | some j =>
    have hbest : Best (ofOrder T o S) ((t * T.hostStride d : ℕ) : ℚ) _ _ :=
      best_tileDim (ofOrder T o S).strideMap.length
    rw [hj] at hbest
    obtain ⟨hjn, htakes, -⟩ := hbest
    obtain ⟨e, m, hplace, hle⟩ := place_of_takes hrank hS hjn htakes
    have hpos : 0 < (ofOrder T o S).strideMap.getD j 0 := htakes.2.1
    obtain ⟨q, hq⟩ := hostStride_dvd_step hd hplace.dim_lt htd
      ((Nat.le_mul_of_pos_right _ (hplace.pos hS)).trans hle)
    rw [hq] at hj ⊢
    have hstride := hplace.stride hS
    suffices hc : ∃ c : ℕ, (((ofOrder T o S).deviceSize.drop (j + 1)).prod *
        (T.hostStride e * q) : ℕ) = c * (T.hostStride e * m) by
      obtain ⟨c, hc⟩ := hc
      refine ⟨c, deviceStep_eq hj hpos ?_⟩
      rw [hstride, hc]
      push_cast
      ring
    cases hplace with
    | whole _ _ _ hi => exact ⟨outerWeight T o S e * S * q, by rw [hi.inner, outerWeight]; ring⟩
    | sticks _ _ _ hi => exact ⟨outerWeight T o S e * q, by rw [hi.inner, outerWeight]; ring⟩
    | stick _ _ _ _ => exact ⟨q, by rw [stick_inner]; ring⟩

/-! ## Where a tile lies -/

/-- A sum over the device dimensions is a sum over the host dimensions. -/
theorem sum_deviceDims (hrank : 0 < T.rank) {f : Option ℕ → ℤ} (hnone : f none = 0) :
    (o.deviceDims.map f).sum = ∑ d ∈ Finset.range T.rank, f (some d) := by
  rw [((o.deviceDims_perm hrank).map f).sum_eq, DimOrder.toList, map_append, sum_append, map_map]
  have hrest : ((if o.sparse then [none] else []).map f).sum = 0 := by
    split_ifs <;> simp [hnone]
  rw [hrest, add_zero, (o.perm.map (f ∘ some)).sum_eq]
  rfl

/-- The position of a host element, dimension by dimension. -/
theorem devicePosition_eq (hrank : 0 < T.rank) (x : ℕ → ℕ) :
    devicePosition o S (ofOrder T o S) x =
      ∑ d ∈ Finset.range T.rank, ((if o.stickDim = some d then
        spread (outerWeight T o S d) S (x d) else outerWeight T o S d * S * x d : ℕ) : ℤ) := by
  rw [devicePosition, deviceCoords, ofOrder, linearAddress_map _ _ _ _ (nodup_deviceDims hrank),
    sum_deviceDims hrank (by simp)]
  have hlast : (match o.stickDim with
      | none => (0 : ℤ)
      | some d => ((x d % S : ℕ) : ℤ)) =
      ∑ d ∈ Finset.range T.rank, if o.stickDim = some d then ((x d % S : ℕ) : ℤ) else 0 := by
    cases hs : o.stickDim with
    | none => simp
    | some s => simp [Finset.sum_ite_eq, o.stickDim_lt hrank hs]
  rw [hlast, ← Finset.sum_add_distrib]
  refine Finset.sum_congr rfl fun d _ => ?_
  dsimp only
  rw [← outerWeight]
  split_ifs
  · rw [spread]
    push_cast
    ring
  · push_cast
    ring

end Dense

end Tiling

end TorchSpyre
