import Mathlib
import TorchSpyre.Layout.Tensor

/-!
# Resizing a device layout

`_resize_device_layout` in `ir.py`. A buffer with a device layout is cut down to a tile of it.
The layout of the tile is not built again : each device dimension is matched to a host
dimension by its size, with the host stride where the size does not decide, and gets the size
and stride that host dimension has in the tile. The host dimension that is cut into sticks is
what no device dimension was matched to. The dimension of its sticks may have been taken for
another host dimension of the same size, and is given back once the stick dimension is known.
-/

namespace TorchSpyre

open Checked

/-! ## The passes -/

/-- The four reasons `_resize_device_layout` raises a `RuntimeError` for. -/
inductive ResizeUnsupported where
  | stickMatched (stickHostDim : ℕ) (matchedHost : List (ℕ × ℕ))
  | stickAbsent (unmatchedJ : List ℕ)
  | stickAmbiguous (unmatchedAll pstarCands : List ℕ)
  | notTileCount (j : ℕ) (expectedTc : ℕ) (tcStride : ℤ)
deriving DecidableEq

/-- What `_resize_device_layout` raises. -/
inductive ResizeError where
  | valueError (oldHostSize newHostSize : List ℕ)
  | runtimeError (reason : ResizeUnsupported)
deriving DecidableEq

/-- `FlexibleLayout.contiguous_strides`. -/
def contiguousStrides : List ℕ → List ℕ
  | [] => []
  | _ :: l => l.prod :: contiguousStrides l

/-- What the first pass makes of a device dimension. -/
inductive DeviceDim where
  | host (p : ℕ)
  | unmatched
  | placeholder
deriving DecidableEq

/-- The layout to resize and the host sizes and strides it was built for. `stickHostDim` is the
stick dimension, where the caller names it. -/
structure ResizeInput where
  orig : SpyreTensorLayout
  elemsPerStick : ℕ
  oldHostSize : List ℕ
  oldHs : List ℕ
  stickHostDim : Option ℕ

namespace ResizeInput

variable (r : ResizeInput)

/-- The number of host dimensions. -/
def ndim : ℕ :=
  r.oldHostSize.length

/-- The number of device dimensions. -/
def ndev : ℕ :=
  r.orig.strideMap.length

/-- The size of a device dimension. -/
def origDs (j : ℕ) : ℕ :=
  r.orig.deviceSize.getD j 0

/-- The stride of a device dimension. -/
def origSm (j : ℕ) : ℤ :=
  r.orig.strideMap.getD j 0

/-- The size of a host dimension. -/
def oldSize (p : ℕ) : ℕ :=
  r.oldHostSize.getD p 0

/-- The stride of a host dimension. -/
def oldStride (p : ℕ) : ℕ :=
  r.oldHs.getD p 0

/-- The number of sticks that cover `n` elements. -/
def sticks (n : ℕ) : ℕ :=
  (n + r.elemsPerStick - 1) / r.elemsPerStick

/-- The named stick dimension is trusted only if some device dimension could hold its
sticks. -/
def validate : ResizeInput :=
  match r.stickHostDim with
  | none => r
  | some s =>
    if s < r.ndim ∧ r.sticks (r.oldSize s) ∈ r.orig.deviceSize.dropLast then r
    else { r with stickHostDim := none }

/-- The host dimensions of a size, but for a named stick dimension. -/
def sizeCands (dsz : ℕ) : List ℕ :=
  (List.range r.ndim).filter fun p => r.oldSize p = dsz ∧ r.stickHostDim ≠ some p

/-- Pass 1, for one device dimension. -/
def classify (j : ℕ) : DeviceDim :=
  let cands := r.sizeCands (r.origDs j)
  if r.origDs j = 1 then
    if r.origSm j ≠ -1 then .unmatched
    else if cands.length = 1 then .host (cands.headD 0) else .placeholder
  else if cands.length = 1 then .host (cands.headD 0)
  else
    -- With no candidate there is none with the right stride either.
    let strideCands := cands.filter fun p => (r.oldStride p : ℤ) = r.origSm j
    if strideCands.length = 1 then .host (strideCands.headD 0) else .unmatched

/-- `matched_host` after the first pass. -/
def matchedHost : List (ℕ × ℕ) :=
  (List.range (r.ndev - 1)).filterMap fun j =>
    match r.classify j with
    | .host p => some (j, p)
    | _ => none

/-- `unmatched_j` after the first pass. -/
def unmatchedJ : List ℕ :=
  (List.range (r.ndev - 1)).filter fun j => r.classify j = .unmatched

/-- The host dimensions no device dimension is matched to. -/
def unmatchedAll (matched : List (ℕ × ℕ)) : List ℕ :=
  (List.range r.ndim).filter fun p => p ∉ matched.map Prod.snd

/-- What is left for the stick dimension : dimensions of size one only if there is nothing
else. -/
def pstarCands (matched : List (ℕ × ℕ)) : List ℕ :=
  let cands := (r.unmatchedAll matched).filter fun p => 1 < r.oldSize p
  if cands = [] then r.unmatchedAll matched else cands

/-- `_find_pstar`. -/
def findPstar (matched : List (ℕ × ℕ)) : Option ℕ :=
  if (r.pstarCands matched).length = 1 then (r.pstarCands matched).head? else none

/-- What pass 1b looks for : a match by size alone, of a dimension as long as the sticks
of `pstar`. -/
def Collides (pstar : ℕ) (m : ℕ × ℕ) : Prop :=
  1 < r.origDs m.1 ∧ r.origSm m.1 ≠ r.oldStride m.2 ∧
    r.origDs m.1 = r.sticks (r.oldSize pstar)

instance (pstar : ℕ) (m : ℕ × ℕ) : Decidable (r.Collides pstar m) :=
  inferInstanceAs (Decidable (_ ∧ _ ∧ _))

/-- Pass 1b : `matched_host` and `unmatched_j`. -/
def reclassify : List (ℕ × ℕ) × List ℕ :=
  match r.findPstar r.matchedHost with
  | none => (r.matchedHost, r.unmatchedJ)
  | some pstar =>
    (r.matchedHost.filter fun m => ¬r.Collides pstar m,
      r.unmatchedJ ++ (r.matchedHost.filter fun m => r.Collides pstar m).map Prod.fst)

/-- The stick dimension, `none` if every host dimension has a device dimension of its own. -/
def pstar (matched : List (ℕ × ℕ)) (unmatched : List ℕ) :
    Except ResizeUnsupported (Option ℕ) :=
  match r.stickHostDim with
  | some s => do
    guardE (s ∈ r.unmatchedAll matched) (.stickMatched s matched)
    return some s
  | none =>
    if r.unmatchedAll matched = [] then do
      guardE (unmatched = []) (.stickAbsent unmatched)
      return none
    else do
      guardE ((r.pstarCands matched).length = 1)
        (.stickAmbiguous (r.unmatchedAll matched) (r.pstarCands matched))
      return (r.pstarCands matched).head?

variable (newHostSize newHs : List ℕ)

/-- Pass 2, for one match. -/
def resizeMatched (layout : SpyreTensorLayout) (m : ℕ × ℕ) : SpyreTensorLayout where
  deviceSize := layout.deviceSize.set m.1 (newHostSize.getD m.2 0)
  strideMap :=
    if newHostSize.getD m.2 0 = 1 then layout.strideMap.set m.1 (-1)
    else if r.origSm m.1 = r.oldStride m.2 then
      layout.strideMap.set m.1 (newHs.getD m.2 0 : ℕ)
    else layout.strideMap

/-- The stride of the sticks of `pstar`. -/
def tcStride (pstar : ℕ) : ℤ :=
  (min r.elemsPerStick (r.oldSize pstar) * r.oldStride pstar : ℕ)

/-- Another host dimension could be what the device dimension holds. -/
def Ambiguous (matched : List (ℕ × ℕ)) (pstar j : ℕ) : Prop :=
  ∃ p ∈ r.unmatchedAll matched, p ≠ pstar ∧ r.oldSize p = r.origDs j

instance (matched : List (ℕ × ℕ)) (pstar j : ℕ) : Decidable (r.Ambiguous matched pstar j) :=
  inferInstanceAs (Decidable (∃ p ∈ _, _))

/-- Pass 3, for one unmatched device dimension. -/
def resizeTileCount (matched : List (ℕ × ℕ)) (pstar : ℕ) (layout : SpyreTensorLayout) (j : ℕ) :
    Except ResizeUnsupported SpyreTensorLayout := do
  guardE (r.origDs j = r.sticks (r.oldSize pstar) ∧
      (r.Ambiguous matched pstar j → r.origSm j = r.tcStride pstar))
    (.notTileCount j (r.sticks (r.oldSize pstar)) (r.tcStride pstar))
  return {
    deviceSize := layout.deviceSize.set j (r.sticks (newHostSize.getD pstar 0))
    strideMap :=
      if newHostSize.getD pstar 0 = 1 then layout.strideMap.set j (-1)
      else if r.origSm j = r.tcStride pstar then
        layout.strideMap.set j
          (min r.elemsPerStick (newHostSize.getD pstar 0) * newHs.getD pstar 0 : ℕ)
      else layout.strideMap }

/-- Pass 4. -/
def resizeStick (pstar : ℕ) (layout : SpyreTensorLayout) : SpyreTensorLayout where
  deviceSize := layout.deviceSize
  strideMap :=
    if newHostSize.getD pstar 0 = 1 then layout.strideMap.set (r.ndev - 1) (-1)
    else if r.origSm (r.ndev - 1) = r.oldStride pstar then
      layout.strideMap.set (r.ndev - 1) (newHs.getD pstar 0 : ℕ)
    else layout.strideMap

/-- All passes, with the named stick dimension checked and the strides known. -/
def resize : Except ResizeUnsupported SpyreTensorLayout := do
  let (matched, unmatched) := r.reclassify
  let pstar ← r.pstar matched unmatched
  let layout := matched.foldl (r.resizeMatched newHostSize newHs) r.orig
  match pstar with
  | none => return layout
  | some p => do
    let layout ← foldE (r.resizeTileCount newHostSize newHs matched p) layout unmatched
    return r.resizeStick newHostSize newHs p layout

end ResizeInput

/-- `_resize_device_layout`. The strides are the old and the new ones, given together or not at
all. -/
def resizeDeviceLayout (orig : SpyreTensorLayout) (elemsPerStick : ℕ)
    (oldHostSize newHostSize : List ℕ) (stickHostDim : Option ℕ)
    (hostStride : Option (List ℕ × List ℕ)) : Except ResizeError SpyreTensorLayout := do
  guardE (oldHostSize.length = newHostSize.length ∧
      ∀ p ∈ oldHostSize.zip newHostSize, p.2 ≤ p.1) (.valueError oldHostSize newHostSize)
  let (oldHs, newHs) :=
    hostStride.getD (contiguousStrides oldHostSize, contiguousStrides newHostSize)
  let r : ResizeInput := { orig, elemsPerStick, oldHostSize, oldHs, stickHostDim }
  (r.validate.resize newHostSize newHs).mapError .runtimeError

end TorchSpyre
