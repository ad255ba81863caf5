import Mathlib
import TorchSpyre.Checked
import TorchSpyre.CoreMapping.Operation

/-!
# Per-core views

`_per_core_view_from_prep` in `pass_utils.py` describes which slice of a buffer each core owns when
the loops of an operation are split over cores. A split loop moves along the buffer by its host
stride. The stride is looked up among the strides of the device dimensions ; a loop over the
stickified host dimension splits whole sticks, and a loop that steps over several sticks at once is
placed on the dimension of the sticks if its split covers all of them. A loop that cannot be placed
makes the view unrepresentable.

Two views describe the same partition if they split the same dimensions and give every core the same
slice (`PerCoreView.samePartition`).

The planner's relayouts are off. The proof that a loop owns slices of a device dimension
(`direct_axis_ownership_failure`) is part of the preparation.
-/

namespace TorchSpyre

open Checked

namespace CoreMapping

/-! ## Views -/

/-- The split device dimensions of a buffer, and each core's slice of them. -/
structure PerCoreView where
  workSliceDims : List (ℕ × ℕ)
  coreToSlot : List (ℕ × Owner)
  numCores : Option ℤ

namespace PerCoreView

/-- The number of physical cores, by default the product of the splits. -/
def cores (view : PerCoreView) : ℤ :=
  view.numCores.getD ((view.workSliceDims.map Prod.snd).prod : ℕ)

/-- There is one pair for each dimension that is split. -/
structure Proper (view : PerCoreView) : Prop where
  nodup : (view.workSliceDims.map Prod.fst).Nodup
  split : ∀ d ∈ view.workSliceDims, 1 < d.2

end PerCoreView

/-- The slices of a dimension agree on every core. A missing one does not agree. -/
def sameOwner (left right : Option Owner) (cores : ℕ) : Bool :=
  left.any fun l => right.any fun r => (List.range cores).all fun core => sameSlot (l core) (r core)

/-- `same_owner_maps`. -/
def sameOwnerMaps (leftSplits : List (ℕ × ℕ)) (leftSlots : List (ℕ × Owner)) (leftCores : ℤ)
    (rightSplits : List (ℕ × ℕ)) (rightSlots : List (ℕ × Owner)) (rightCores : ℤ) : Bool :=
  let left := leftSplits.filter fun d => 1 < d.2
  let right := rightSplits.filter fun d => 1 < d.2
  0 < leftCores && leftCores = rightCores &&
    (left.isEmpty && right.isEmpty || left.isPerm right && left.all fun d =>
      sameOwner (leftSlots.lookup d.1) (rightSlots.lookup d.1) leftCores.toNat)

/-- `same_partition`. -/
def PerCoreView.samePartition (view other : PerCoreView) : Bool :=
  sameOwnerMaps view.workSliceDims view.coreToSlot view.cores
    other.workSliceDims other.coreToSlot other.cores

/-- The same partition splits the same dimensions, on the same number of cores. -/
theorem PerCoreView.perm_of_samePartition {view other : PerCoreView} (hview : view.Proper)
    (hother : other.Proper) (h : view.samePartition other = true) :
    view.workSliceDims.Perm other.workSliceDims ∧ 0 < view.cores ∧ view.cores = other.cores := by
  have hleft : (view.workSliceDims.filter fun d => 1 < d.2) = view.workSliceDims :=
    List.filter_eq_self.2 fun d hd => decide_eq_true (hview.split d hd)
  have hright : (other.workSliceDims.filter fun d => 1 < d.2) = other.workSliceDims :=
    List.filter_eq_self.2 fun d hd => decide_eq_true (hother.split d hd)
  simp only [samePartition, sameOwnerMaps, hleft, hright, Bool.and_eq_true, decide_eq_true_eq,
    Bool.or_eq_true, List.isEmpty_iff, List.isPerm_iff] at h
  obtain ⟨⟨hpos, hcores⟩, ⟨hl, hr⟩ | ⟨hperm, -⟩⟩ := h
  · exact ⟨by rw [hl, hr], hpos, hcores⟩
  · exact ⟨hperm, hpos, hcores⟩

/-! ## Layouts -/

/-- The device dimensions of a buffer, with the host strides they move by. The last one is the
stick. -/
structure DeviceLayout where
  deviceSize : List ℕ
  strideMap : List ℤ
  elemsPerStick : ℕ

namespace DeviceLayout

/-- One dimension of the loop that builds `device_stride_to_dim`. -/
def strideStep (deviceSize : List ℕ) (dims : List (ℤ × ℕ)) (dim : ℤ × ℕ) : List (ℤ × ℕ) :=
  if dim.1 ≤ 0 then dims
  else if (dims.lookup dim.1).isNone ∨ deviceSize.getD dim.2 0 ≠ 1 then
    dim :: dims.filter fun d => d.1 ≠ dim.1
  else dims

variable (layout : DeviceLayout)

/-- `device_stride_to_dim`. -/
def deviceStrideToDim : List (ℤ × ℕ) :=
  layout.strideMap.zipIdx.foldl (strideStep layout.deviceSize) []

/-- `stick_host_stride`. -/
def stickHostStride : Option ℤ :=
  layout.strideMap.getLast?.filter fun stride => 0 < stride

/-- `num_stick_dim`, the dimension that counts sticks. -/
def numStickDim : Option ℕ :=
  layout.stickHostStride.bind fun stride =>
    layout.deviceStrideToDim.lookup (stride * layout.elemsPerStick)

/-- `num_stick`. -/
def numStick : ℕ :=
  layout.numStickDim.elim 0 fun dim => layout.deviceSize.getD dim 0

/-- `num_stick_stride`. -/
def numStickStride : ℤ :=
  layout.numStickDim.elim 0 fun dim => layout.strideMap.getD dim 0

/-- The dimensions in `device_stride_to_dim` have the strides they are found by. -/
theorem stride_of_mem {layout : DeviceLayout} {dim : ℤ × ℕ}
    (h : dim ∈ layout.deviceStrideToDim) : layout.strideMap[dim.2]? = some dim.1 := by
  have hrun : ∀ (entries dims : List (ℤ × ℕ)), (∀ d ∈ entries, layout.strideMap[d.2]? = some d.1) →
      (∀ d ∈ dims, layout.strideMap[d.2]? = some d.1) →
      ∀ d ∈ entries.foldl (strideStep layout.deviceSize) dims,
        layout.strideMap[d.2]? = some d.1 := by
    intro entries
    induction entries with
    | nil => exact fun dims _ hdims => hdims
    | cons e entries ih =>
      intro dims hentries hdims
      obtain ⟨he, hentries⟩ := List.forall_mem_cons.1 hentries
      refine ih _ hentries ?_
      rw [strideStep]
      split_ifs
      · exact hdims
      · exact List.forall_mem_cons.2 ⟨he, fun d hd => hdims d (List.mem_filter.1 hd).1⟩
      · exact hdims
  refine hrun _ [] (fun d hd => ?_) (fun d hd => absurd hd List.not_mem_nil) dim h
  exact List.mem_zipIdx_iff_getElem?.1 hd

/-- The stride of the dimension that counts sticks leads back to it. -/
theorem lookup_numStickStride {layout : DeviceLayout} {dim : ℕ}
    (h : layout.numStickDim = some dim) :
    layout.deviceStrideToDim.lookup layout.numStickStride = some dim := by
  obtain ⟨stride, hstride, hlookup⟩ := Option.bind_eq_some_iff.1 h
  have hmem := stride_of_mem (Lists.mem_of_lookup hlookup)
  rw [numStickStride, h, Option.elim_some, List.getD_eq_getElem?_getD, hmem, Option.getD_some]
  exact hlookup

end DeviceLayout

/-! ## Preparations -/

/-- `_ViewPrep` : the loops of an operation with their extents, their host strides on the buffer,
and the loops in each device coordinate. `ownershipFails` is `direct_axis_ownership_failure` for a
device dimension and a loop, with the loop's extent and split and the split of the dimension.
`kFast` is set for a matmul whose last loop varies first over the cores. -/
structure ViewPrep where
  layout : DeviceLayout
  iterSpace : List (String × ℕ)
  depCoeff : String → ℤ
  freeSymbols : List (List String)
  ownershipFails : ℕ → String → ℕ → ℕ → ℕ → Bool
  kFast : Bool
  nodup : (iterSpace.map Prod.fst).Nodup

/-- A split that cannot be placed, or an error of `core_to_slice_mapping`. -/
inductive ViewError where
  | unrepresentable
  | mapping (e : MappingError)
deriving DecidableEq

namespace ViewPrep

variable (prep : ViewPrep)

/-- The loop symbols. -/
def symbols : List String :=
  prep.iterSpace.map Prod.fst

/-- The range of a loop. -/
def extent (sym : String) : ℕ :=
  (prep.iterSpace.lookup sym).getD 0

/-- One loop of `splits_by_stride`. A later loop replaces one of the same stride. -/
def strideSplit (splits : String → ℕ) (dict : List (ℤ × ℕ × String)) (sym : String) :
    List (ℤ × ℕ × String) :=
  if splits sym ≤ 1 ∨ prep.depCoeff sym = 0 then dict
  else (prep.depCoeff sym, splits sym, sym) :: dict.filter fun e => e.1 ≠ prep.depCoeff sym

/-- `splits_by_stride`, sorted. -/
def splitsByStride (splits : String → ℕ) : List (ℤ × ℕ × String) :=
  (prep.symbols.foldl (prep.strideSplit splits) []).insertionSort fun a b => a.1 ≤ b.1

/-- The device dimension of a host stride. -/
def directDim (h : ℤ) : Option ℕ :=
  if prep.layout.stickHostStride = some h then prep.layout.numStickDim
  else prep.layout.deviceStrideToDim.lookup h

/-- The dimension and the split on it, with the rescue for a loop over several sticks. -/
def proposal (h : ℤ) (split : ℕ) : Option ℕ × ℕ :=
  let stride := prep.layout.numStickStride
  if prep.directDim h = none ∧ 0 < stride ∧ h % stride = 0 ∧
      split * (h / stride) = prep.layout.numStick then
    (prep.layout.numStickDim, split * (h / stride).toNat)
  else (prep.directDim h, split)

/-- The extent of a loop in the ownership proof : padded to sticks for a loop over the whole
stickified dimension. -/
def provedExtent (h : ℤ) (sym : String) : ℕ :=
  let padded := prep.layout.numStick * prep.layout.elemsPerStick
  if prep.layout.stickHostStride = some h ∧ padded < prep.extent sym + prep.layout.elemsPerStick ∧
      prep.extent sym ≤ padded then padded
  else prep.extent sym

/-- A loop in several coordinates has to be proved to own the slices of a dimension. -/
def owns (splits : String → ℕ) (h : ℤ) (sym : String) (split dim : ℕ) : Bool :=
  !(1 < (prep.freeSymbols.filter fun free => sym ∈ free).length &&
    prep.ownershipFails dim sym (prep.provedExtent h sym) (splits sym) split)

/-- A loop outside of this one, on the same dimension, is not split. -/
def interleaved (splits : String → ℕ) (h : ℤ) (sym : String) (dim : ℕ) : Bool :=
  (prep.freeSymbols.getD dim []).any fun other =>
    other ≠ sym && splits other ≤ 1 && h < prep.depCoeff other

/-- Place one split on a device dimension. -/
def placeSplit (splits : String → ℕ) (placed : List (ℕ × ℕ × String)) (entry : ℤ × ℕ × String) :
    Except ViewError (List (ℕ × ℕ × String)) := do
  let h := entry.1
  let sym := entry.2.2
  guardE (¬(prep.layout.stickHostStride = some h ∧ prep.layout.numStickDim.isSome ∧
    prep.layout.numStick * prep.layout.elemsPerStick < prep.extent sym)) .unrepresentable
  let proposal := prep.proposal h entry.2.1
  (proposal.1.filter (prep.owns splits h sym proposal.2)).elim (.error .unrepresentable)
    fun dim => do
      guardE (prep.interleaved splits h sym dim = false) .unrepresentable
      guardE (dim ∉ placed.map Prod.fst ∧ prep.layout.deviceSize.getD dim 0 % proposal.2 = 0)
        .unrepresentable
      .ok (placed ++ [(dim, proposal.2, sym)])

/-- The number of cores of a split map. -/
def coreCount (splits : String → ℕ) : ℕ :=
  (prep.symbols.map splits).prod

/-- The loop that `core_to_slice_mapping` takes first. -/
def contiguousDim : Option ℕ :=
  if prep.kFast then some (prep.symbols.length - 1) else none

/-- Each core's slice of every loop. -/
def coreToSlice (splits : String → ℕ) : Except ViewError Mapping :=
  (coreToSliceMapping prep.symbols (prep.symbols.map splits) (prep.coreCount splits)
    prep.contiguousDim).mapError .mapping

/-- The view of placed splits. -/
def viewOf (splits : String → ℕ) (placed : List (ℕ × ℕ × String)) (mapping : Mapping) :
    PerCoreView where
  workSliceDims := (placed.map fun p => (p.1, p.2.1)).insertionSort fun a b => a.1 ≤ b.1
  coreToSlot := (placed.map fun p => (p.1, fun core =>
    some (((mapping.lookup p.2.2).getD .zero).eval core : ℤ))).insertionSort fun a b => a.1 ≤ b.1
  numCores := some (prep.coreCount splits)

/-- `_per_core_view_from_prep`, for a split map. -/
def perCoreViewFromPrep (splits : String → ℕ) : Except ViewError PerCoreView :=
  if ∀ sym ∈ prep.symbols, splits sym ≤ 1 then .ok ⟨[], [], some (prep.coreCount splits)⟩
  else do
    let placed ← foldE (prep.placeSplit splits) [] (prep.splitsByStride splits)
    let mapping ← prep.coreToSlice splits
    .ok (prep.viewOf splits placed mapping)

end ViewPrep

end CoreMapping

end TorchSpyre
