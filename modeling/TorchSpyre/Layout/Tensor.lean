import Mathlib
import TorchSpyre.Checked
import TorchSpyre.Strided

/-!
# The device layout of a dense tensor

`SpyreTensorLayout::init` in `spyre_tensor_impl.cpp`. A host tensor has sizes and strides, a
dimension order lists its dimensions, the one that is cut into sticks last. The device
dimensions are the dimensions of the order, the first one moved to the end, and then the
stick. The stick dimension appears twice : its sticks among the outer dimensions and its
elements in the stick. An order that ends in `-1` has no stick dimension (a sparse layout) :
each element has a stick of its own.

`stride_map` gives each device dimension the host stride of its host dimension, and `-1` to
a dimension of size one. The loop that computes it carries the stride already covered of each
host dimension ; since every host dimension is listed once, only the stick dimension meets
it twice, which is the closed form `init_eq`.
-/

open List Function

namespace TorchSpyre

open Strided Checked

/-- The sizes and strides of the device dimensions, outermost first. -/
structure SpyreTensorLayout where
  deviceSize : List ℕ
  strideMap : List ℤ
deriving DecidableEq

namespace SpyreTensorLayout

/-- What the loop of `init` carries : the strides found so far, by device dimension, and the
stride already covered, by host dimension (`-1` when none is). -/
structure StrideState where
  strideMap : ℕ → ℤ
  lastStride : ℕ → ℤ

/-- The lambda `update_stride`. The order's `-1` is `none`. -/
def updateStride (hostSize hostStrides deviceSize : List ℕ) (hostDim : Option ℕ) (devIdx : ℕ)
    (st : StrideState) : StrideState :=
  match hostDim with
  | none => st
  | some d =>
    if hostSize.getD d 0 = 1 then st
    else
      let stride : ℤ :=
        if st.lastStride d = -1 then hostStrides.getD d 0 else st.lastStride d
      { strideMap := Function.update st.strideMap devIdx stride
        lastStride := Function.update st.lastStride d
          (min (stride * (deviceSize.getD devIdx 0 : ℕ))
            ((hostStrides.getD d 0 : ℕ) * (hostSize.getD d 0 : ℕ))) }

/-- The lambda `compute_extent`. -/
def computeExtent (hostSize : List ℕ) (elemsPerStick : ℕ) (stickDim hostDim : Option ℕ) : ℕ :=
  match hostDim with
  | none => 1
  | some d =>
    if stickDim = some d then (hostSize.getD d 0 + elemsPerStick - 1) / elemsPerStick
    else hostSize.getD d 0

/-- The device dimension of the `i`-th dimension of the order. -/
def devIdx (hostRank i : ℕ) : ℕ :=
  if i = 0 then hostRank - 1 else i - 1

/-- The sizes of the device dimensions : the order's dimensions, the first one last, and the
stick. -/
def deviceSizes (hostSize : List ℕ) (elemsPerStick : ℕ) (dimOrder : List (Option ℕ)) : List ℕ :=
  let extent := computeExtent hostSize elemsPerStick (dimOrder.getLastD none)
  dimOrder.tail.map extent ++ [extent (dimOrder.headD none)] ++ [elemsPerStick]

/-- The strides of the device dimensions. The loop runs from the end of the order to its
front, after the stick. -/
def strides (hostSize hostStrides deviceSize : List ℕ) (dimOrder : List (Option ℕ)) : List ℤ :=
  let hostRank := dimOrder.length
  let update := updateStride hostSize hostStrides deviceSize
  let start := update (dimOrder.getLastD none) hostRank
    { strideMap := fun _ => -1, lastStride := fun _ => -1 }
  let final := dimOrder.zipIdx.foldr (fun p => update p.1 (devIdx hostRank p.2)) start
  (List.range (hostRank + 1)).map final.strideMap

/-- `SpyreTensorLayout::init`, with the number of elements in a stick that the data type
has. -/
def init (hostSize hostStrides : List ℕ) (elemsPerStick : ℕ) (dimOrder : List (Option ℕ)) :
    Except String SpyreTensorLayout := do
  guardE (hostSize.length = hostStrides.length) "Incompatible host_size and host_strides"
  guardE (hostSize.length = dimOrder.length ∨
      hostSize.length + 1 = dimOrder.length ∧ dimOrder.getLast? = some none)
    "Incompatible host_size and dim_order"
  guardE (0 < elemsPerStick) "No stick size mapping for device data format "
  if hostSize.length = 0 then
    return { deviceSize := [1, elemsPerStick], strideMap := [-1, -1] }
  let deviceSize := deviceSizes hostSize elemsPerStick dimOrder
  return { deviceSize, strideMap := strides hostSize hostStrides deviceSize dimOrder }

end SpyreTensorLayout

/-! ## Dense tensors -/

/-- A tensor whose host strides are those of a row-major tensor with its dimensions listed in
`order`, outermost first. -/
structure DenseTensor where
  rank : ℕ
  size : ℕ → ℕ
  order : List ℕ
  order_perm : order.Perm (List.range rank)
  size_pos : ∀ d < rank, 0 < size d

namespace DenseTensor

variable (T : DenseTensor)

/-- The product of the sizes of the dimensions inside. -/
def hostStride (d : ℕ) : ℕ :=
  weight T.size T.order d

/-- The sizes as a list. -/
def hostSize : List ℕ :=
  (List.range T.rank).map T.size

/-- The strides as a list. -/
def hostStrides : List ℕ :=
  (List.range T.rank).map T.hostStride

variable {T}

variable {d : ℕ}

theorem mem_order : d ∈ T.order ↔ d < T.rank := by
  rw [T.order_perm.mem_iff, mem_range]

theorem hostStride_pos (d : ℕ) : 0 < T.hostStride d :=
  weight_pos (fun e he => T.size_pos e (mem_order.mp he)) d

theorem hostSize_getD (hd : d < T.rank) : T.hostSize.getD d 0 = T.size d := by
  simp [hostSize, hd]

theorem hostStrides_getD (hd : d < T.rank) : T.hostStrides.getD d 0 = T.hostStride d := by
  simp [hostStrides, hd]

/-- What one of two dimensions spans divides the stride of the other. -/
theorem span_dvd_hostStride {e : ℕ} (hd : d < T.rank) (he : e < T.rank) (hde : d ≠ e) :
    T.size d * T.hostStride d ∣ T.hostStride e ∨ T.size e * T.hostStride e ∣ T.hostStride d :=
  span_dvd_weight T.size (mem_order.mpr hd) (mem_order.mpr he) hde

end DenseTensor

/-- A dimension order for `init` : every host dimension once, and `-1` at the end of a sparse
one. -/
structure DimOrder (rank : ℕ) where
  dims : List ℕ
  perm : dims.Perm (List.range rank)
  sparse : Bool

namespace DimOrder

variable {rank : ℕ} (o : DimOrder rank)

/-- The order as the source has it, with -1 for the sparse dimension. -/
def toList : List (Option ℕ) :=
  o.dims.map some ++ if o.sparse then [none] else []

/-- The dimension that is cut into sticks. -/
def stickDim : Option ℕ :=
  o.toList.getLastD none

/-- The host dimension of each device dimension but the stick. -/
def deviceDims : List (Option ℕ) :=
  o.toList.tail ++ [o.toList.headD none]

variable {o}

theorem toList_ne_nil (hrank : 0 < rank) : o.toList ≠ [] := by
  have hlen : o.dims.length = rank := by simpa using o.perm.length_eq
  have hdims : o.dims ≠ [] := ne_nil_of_length_pos (by omega)
  simp [toList, hdims]

theorem nodup_toList : o.toList.Nodup := by
  have hdims : o.dims.Nodup := o.perm.nodup_iff.mpr nodup_range
  have hmap : (o.dims.map some).Nodup := hdims.map (Option.some_injective ℕ)
  unfold toList
  split_ifs
  · exact hmap.append (nodup_singleton none) (by simp)
  · simpa using hmap

theorem some_mem_toList {d : ℕ} : some d ∈ o.toList ↔ d < rank := by
  have hmem : d ∈ o.dims ↔ d < rank := by rw [o.perm.mem_iff, mem_range]
  unfold toList
  split_ifs <;> simp [hmem]

theorem deviceDims_perm (hrank : 0 < rank) : o.deviceDims.Perm o.toList := by
  obtain ⟨a, l, h⟩ := exists_cons_of_ne_nil (o.toList_ne_nil hrank)
  rw [deviceDims, h]
  exact perm_append_singleton a l

theorem stickDim_lt {d : ℕ} (hrank : 0 < rank) (h : o.stickDim = some d) : d < rank := by
  have hne := o.toList_ne_nil hrank
  rw [stickDim, getLastD_eq_getLast?, getLast?_eq_some_getLast hne] at h
  have hlast : o.toList.getLast hne = some d := h
  exact some_mem_toList.mp (hlast ▸ getLast_mem hne)

end DimOrder

/-! ## The closed form of `init` -/

namespace SpyreTensorLayout

section Fold

variable {hostSize hostStrides deviceSize : List ℕ}

variable {l : List (Option ℕ × ℕ)} {h : Option ℕ} {st : StrideState} {d j : ℕ}

theorem updateStride_lastStride_of_ne (hne : h ≠ some d) :
    (updateStride hostSize hostStrides deviceSize h j st).lastStride d = st.lastStride d := by
  cases h with
  | none => rfl
  | some e =>
    have hde : d ≠ e := fun h => hne (h ▸ rfl)
    simp only [updateStride]
    split_ifs
    · rfl
    all_goals exact update_of_ne hde _ _

theorem updateStride_strideMap_of_ne {i : ℕ} (hne : i ≠ j) :
    (updateStride hostSize hostStrides deviceSize h j st).strideMap i = st.strideMap i := by
  cases h with
  | none => rfl
  | some e =>
    simp only [updateStride]
    split_ifs
    · rfl
    all_goals exact update_of_ne hne _ _

/-- An update writes a stride that depends only on what the state says of its own host and
device dimensions. -/
theorem updateStride_strideMap_congr {st' : StrideState} (hmap : st.strideMap j = st'.strideMap j)
    (hlast : ∀ d, h = some d → st.lastStride d = st'.lastStride d) :
    (updateStride hostSize hostStrides deviceSize h j st).strideMap j =
      (updateStride hostSize hostStrides deviceSize h j st').strideMap j := by
  cases h with
  | none => exact hmap
  | some d =>
    simp only [updateStride, hlast d rfl]
    split_ifs
    · exact hmap
    all_goals simp only [update_self]

/-- The loop over host and device dimensions, the last pair first. -/
def strideLoop (hostSize hostStrides deviceSize : List ℕ) (l : List (Option ℕ × ℕ))
    (st : StrideState) : StrideState :=
  l.foldr (fun p => updateStride hostSize hostStrides deviceSize p.1 p.2) st

theorem strideLoop_lastStride (hd : some d ∉ l.map Prod.fst) :
    (strideLoop hostSize hostStrides deviceSize l st).lastStride d = st.lastStride d := by
  induction l with
  | nil => rfl
  | cons p l ih =>
    rw [map_cons, mem_cons, not_or] at hd
    exact (updateStride_lastStride_of_ne (Ne.symm hd.1)).trans (ih hd.2)

theorem strideLoop_strideMap_of_not_mem (hj : j ∉ l.map Prod.snd) :
    (strideLoop hostSize hostStrides deviceSize l st).strideMap j = st.strideMap j := by
  induction l with
  | nil => rfl
  | cons p l ih =>
    rw [map_cons, mem_cons, not_or] at hj
    exact (updateStride_strideMap_of_ne hj.1).trans (ih hj.2)

/-- Each host and each device dimension is met once, so its update finds the state in which
the loop started. -/
theorem strideLoop_strideMap (hhost : (l.map Prod.fst).Nodup) (hdev : (l.map Prod.snd).Nodup)
    (hmem : (h, j) ∈ l) :
    (strideLoop hostSize hostStrides deviceSize l st).strideMap j =
      (updateStride hostSize hostStrides deviceSize h j st).strideMap j := by
  induction l with
  | nil => simp at hmem
  | cons p l ih =>
    obtain ⟨hp, hhost⟩ := nodup_cons.mp hhost
    obtain ⟨hq, hdev⟩ := nodup_cons.mp hdev
    rcases mem_cons.mp hmem with rfl | hmem
    · refine updateStride_strideMap_congr (strideLoop_strideMap_of_not_mem hq) ?_
      rintro d rfl
      exact strideLoop_lastStride hp
    · have hne : j ≠ p.2 := fun h => hq (h ▸ mem_map_of_mem hmem)
      exact (updateStride_strideMap_of_ne hne).trans (ih hhost hdev hmem)

end Fold

variable (T : DenseTensor) (o : DimOrder T.rank) (elemsPerStick : ℕ)

/-- The size of the device dimension of a host dimension. -/
def extent (h : Option ℕ) : ℕ :=
  computeExtent T.hostSize elemsPerStick o.stickDim h

/-- The stride of the device dimension of a host dimension. -/
def outerStride : Option ℕ → ℤ
  | none => -1
  | some d =>
    if T.size d = 1 then -1
    else if o.stickDim = some d then
      ((T.hostStride d * min elemsPerStick (T.size d) : ℕ) : ℤ)
    else (T.hostStride d : ℤ)

/-- The stride of the stick. -/
def stickStride : ℤ :=
  match o.stickDim with
  | none => -1
  | some d => if T.size d = 1 then -1 else (T.hostStride d : ℤ)

/-- The layout `init` builds for a dense tensor. -/
def ofOrder : SpyreTensorLayout where
  deviceSize := o.deviceDims.map (extent T o elemsPerStick) ++ [elemsPerStick]
  strideMap := o.deviceDims.map (outerStride T o elemsPerStick) ++ [stickStride T o]

variable {T o elemsPerStick}

variable {dimOrder l : List (Option ℕ)} {deviceSize hostSize hostStrides : List ℕ} {a : Option ℕ}

/-- The pairs of host and device dimensions the loop goes through. -/
theorem zipIdx_devIdx :
    ((a :: l).zipIdx.map fun p => (p.1, devIdx (a :: l).length p.2)) =
      (a, l.length) :: l.zipIdx := by
  rw [zipIdx_cons, map_cons, zipIdx_succ, map_map]
  simp [devIdx, comp_def]

theorem updateStride_start (st : StrideState) (hst : st.lastStride = fun _ => -1) {d : ℕ}
    (hd : d < T.rank) (hsize : T.size d ≠ 1) (deviceSize : List ℕ) (j : ℕ) :
    updateStride T.hostSize T.hostStrides deviceSize (some d) j st =
      { strideMap := Function.update st.strideMap j (T.hostStride d)
        lastStride := Function.update st.lastStride d
          ((T.hostStride d * min (deviceSize.getD j 0) (T.size d) : ℕ) : ℤ) } := by
  simp only [updateStride, DenseTensor.hostSize_getD hd, DenseTensor.hostStrides_getD hd,
    if_neg hsize, hst, if_true]
  congr 1
  rw [Nat.cast_mul, Nat.cast_min, mul_min_of_nonneg _ _ (Nat.cast_nonneg _)]

/-- The state in which the loop starts : the stick has its stride, and the stick dimension the
stride its sticks begin with. -/
theorem updateStride_stick {n : ℕ} (hrank : 0 < T.rank) (hn : deviceSize.getD n 0 = elemsPerStick) :
    let start := updateStride T.hostSize T.hostStrides deviceSize o.stickDim n
      { strideMap := fun _ => -1, lastStride := fun _ => -1 }
    start.strideMap n = stickStride T o ∧
      ∀ d, T.size d ≠ 1 → start.lastStride d =
        if o.stickDim = some d then ((T.hostStride d * min elemsPerStick (T.size d) : ℕ) : ℤ)
        else -1 := by
  intro start
  cases hstick : o.stickDim with
  | none => simp [start, updateStride, stickStride, hstick]
  | some s =>
    have hs : s < T.rank := o.stickDim_lt hrank hstick
    by_cases hsize : T.size s = 1
    · have hstart : start = { strideMap := fun _ => -1, lastStride := fun _ => -1 } := by
        simp only [start, hstick, updateStride, DenseTensor.hostSize_getD hs, if_pos hsize]
      refine ⟨by simp [hstart, stickStride, hstick, hsize], fun d hd => ?_⟩
      have hsd : some s ≠ some d := fun h => hd (Option.some_injective ℕ h ▸ hsize)
      rw [hstart, if_neg hsd]
    · have hstart := updateStride_start ⟨fun _ => -1, fun _ => -1⟩ rfl hs hsize
        deviceSize n
      simp only [start, hstick, hstart, hn]
      refine ⟨by simp [stickStride, hstick, hsize], fun d _ => ?_⟩
      by_cases hsd : s = d
      · subst hsd
        simp
      · rw [update_of_ne (Ne.symm hsd), if_neg fun h => hsd (Option.some_injective ℕ h)]

/-- What the loop writes for a host dimension. -/
theorem updateStride_outer {j : ℕ} {st : StrideState} {h : Option ℕ} (hj : st.strideMap j = -1)
    (hh : ∀ d, h = some d → d < T.rank)
    (hlast : ∀ d, T.size d ≠ 1 → st.lastStride d =
      if o.stickDim = some d then ((T.hostStride d * min elemsPerStick (T.size d) : ℕ) : ℤ)
      else -1) :
    (updateStride T.hostSize T.hostStrides deviceSize h j st).strideMap j =
      outerStride T o elemsPerStick h := by
  cases h with
  | none => exact hj
  | some d =>
    have hd := hh d rfl
    simp only [updateStride, outerStride, DenseTensor.hostSize_getD hd,
      DenseTensor.hostStrides_getD hd]
    by_cases hsize : T.size d = 1
    · rw [if_pos hsize, if_pos hsize, hj]
    · rw [if_neg hsize, if_neg hsize, hlast d hsize]
      simp only [update_self]
      by_cases hstick : o.stickDim = some d
      · have hne : ((T.hostStride d * min elemsPerStick (T.size d) : ℕ) : ℤ) ≠ -1 := by omega
        rw [if_pos hstick, if_neg hne, if_pos hstick]
      · rw [if_neg hstick, if_neg hstick, if_pos rfl]

/-- The strides the loop leaves behind, read off along the device dimensions. -/
theorem strideLoop_eq (hlist : o.toList = a :: l) (hrank : 0 < T.rank)
    (hn : deviceSize.getD (l.length + 1) 0 = elemsPerStick) :
    (List.range (l.length + 2)).map
        (strideLoop T.hostSize T.hostStrides deviceSize ((a, l.length) :: l.zipIdx)
          (updateStride T.hostSize T.hostStrides deviceSize o.stickDim (l.length + 1)
            { strideMap := fun _ => -1, lastStride := fun _ => -1 })).strideMap =
      o.deviceDims.map (outerStride T o elemsPerStick) ++ [stickStride T o] := by
  have hdims : o.deviceDims = l ++ [a] := by rw [DimOrder.deviceDims, hlist]; rfl
  obtain ⟨hstick, hlast⟩ := updateStride_stick (o := o) hrank hn
  have hhost : (((a, l.length) :: l.zipIdx).map Prod.fst).Nodup := by
    have hnodup := o.nodup_toList
    rw [hlist] at hnodup
    simpa using hnodup
  have hdev : (((a, l.length) :: l.zipIdx).map Prod.snd).Nodup := by simp [nodup_range']
  have hpair : ∀ h j, (h, j) ∈ (a, l.length) :: l.zipIdx →
      (strideLoop T.hostSize T.hostStrides deviceSize ((a, l.length) :: l.zipIdx)
        (updateStride T.hostSize T.hostStrides deviceSize o.stickDim (l.length + 1)
          { strideMap := fun _ => -1, lastStride := fun _ => -1 })).strideMap j =
        outerStride T o elemsPerStick h := by
    intro h j hmem
    have hj : j ≠ l.length + 1 := by
      rcases mem_cons.mp hmem with heq | hmem
      · simp only [Prod.mk.injEq] at heq
        omega
      · have := snd_lt_of_mem_zipIdx hmem
        dsimp only at this
        omega
    rw [strideLoop_strideMap hhost hdev hmem]
    refine updateStride_outer (updateStride_strideMap_of_ne hj) ?_ hlast
    rintro d rfl
    have hfst : some d ∈ ((a, l.length) :: l.zipIdx).map Prod.fst := mem_map_of_mem hmem
    exact DimOrder.some_mem_toList.mp (by rw [hlist]; simpa using hfst)
  rw [range_succ, map_append, map_singleton,
    strideLoop_strideMap_of_not_mem (by simp), hstick, hdims, range_succ, map_append,
    map_append, map_singleton, map_singleton, hpair a l.length (by simp)]
  congr 2
  refine ext_getElem (by simp) fun j h₁ h₂ => ?_
  have hj : j < l.length := by simpa using h₁
  rw [getElem_map, getElem_map, getElem_range]
  exact hpair l[j] j (mem_cons_of_mem _ (mk_mem_zipIdx_iff_getElem?.mpr (by simp [hj])))

/-- The layout of a dense tensor that is no scalar. -/
theorem init_eq (hrank : 0 < T.rank) (hstick : 0 < elemsPerStick) :
    init T.hostSize T.hostStrides elemsPerStick o.toList = .ok (ofOrder T o elemsPerStick) := by
  obtain ⟨a, l, hlist⟩ := exists_cons_of_ne_nil (o.toList_ne_nil hrank)
  have hcount : o.toList.length = l.length + 1 := by rw [hlist]; rfl
  have hlen : T.hostSize.length = T.rank := by simp [DenseTensor.hostSize]
  have hlen' : T.hostStrides.length = T.rank := by simp [DenseTensor.hostStrides]
  have hfit : T.rank = o.toList.length ∨
      T.rank + 1 = o.toList.length ∧ o.toList.getLast? = some none := by
    have hdims : o.dims.length = T.rank := by simpa using o.perm.length_eq
    cases hsparse : o.sparse <;> simp [DimOrder.toList, hsparse, hdims]
  have hdevice : deviceSizes T.hostSize elemsPerStick o.toList =
      (ofOrder T o elemsPerStick).deviceSize := by
    rw [deviceSizes, ofOrder, DimOrder.deviceDims, map_append]
    rfl
  have hn : (ofOrder T o elemsPerStick).deviceSize.getD (l.length + 1) 0 = elemsPerStick := by
    simp [ofOrder, DimOrder.deviceDims, hlist]
  have hstrides : strides T.hostSize T.hostStrides (ofOrder T o elemsPerStick).deviceSize
      o.toList = (ofOrder T o elemsPerStick).strideMap := by
    have hloop := strideLoop_eq hlist hrank hn
    rw [strideLoop, ← zipIdx_devIdx, ← hlist, foldr_map, hcount] at hloop
    rw [strides, hcount]
    exact hloop
  rw [init, hlen, hlen', hdevice]
  simp only [guardE, if_pos hfit, if_pos hstick, if_true, if_neg hrank.ne', hstrides]
  rfl

/-- The layout of a dense tensor, scalars included. -/
theorem init_eq_ofOrder (hstick : 0 < elemsPerStick) :
    init T.hostSize T.hostStrides elemsPerStick o.toList = .ok (ofOrder T o elemsPerStick) := by
  rcases Nat.eq_zero_or_pos T.rank with hrank | hrank
  · have hdims : o.dims = [] := by simpa [hrank] using o.perm
    cases hsparse : o.sparse <;>
      simp [init, ofOrder, DenseTensor.hostSize, DenseTensor.hostStrides, DimOrder.deviceDims,
        DimOrder.stickDim, DimOrder.toList, hrank, hdims, hsparse, guardE, hstick, extent,
        computeExtent, outerStride, stickStride, bind, Except.bind, pure, Except.pure]
  · exact init_eq hrank hstick

/-- The strides of the dimensions of size one are not read. -/
theorem init_congr {hostStrides' : List ℕ} (hlen : hostStrides.length = hostStrides'.length)
    (hstrides : ∀ d, hostSize.getD d 0 ≠ 1 → hostStrides.getD d 0 = hostStrides'.getD d 0) :
    init hostSize hostStrides elemsPerStick dimOrder =
      init hostSize hostStrides' elemsPerStick dimOrder := by
  have hupdate : updateStride hostSize hostStrides = updateStride hostSize hostStrides' := by
    funext deviceSize h j st
    cases h with
    | none => rfl
    | some d =>
      by_cases hd : hostSize.getD d 0 = 1
      · rw [updateStride, updateStride, if_pos hd, if_pos hd]
      · rw [updateStride, updateStride, hstrides d hd]
  simp only [init, strides, hlen, hupdate]

/-- A layout is only built with a stick of at least one element. -/
theorem elemsPerStick_pos {layout : SpyreTensorLayout}
    (h : init hostSize hostStrides elemsPerStick dimOrder = .ok layout) : 0 < elemsPerStick := by
  obtain ⟨_, _, h⟩ := bind_eq_ok_iff.mp h
  obtain ⟨_, _, h⟩ := bind_eq_ok_iff.mp h
  obtain ⟨_, hpos, _⟩ := bind_eq_ok_iff.mp h
  exact guardE_eq_ok_iff.mp hpos

end SpyreTensorLayout

end TorchSpyre
