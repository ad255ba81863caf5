import Mathlib
import TorchSpyre.Checked
import TorchSpyre.Words

/-!
# Conversions that copy

A data conversion lists descriptors in 64-bit words. A descriptor moves one element for every index
below its sizes, from a source position to a destination position. `dci_is_identity_copy` in
`spyre_mem.cpp` finds the conversions that need no conversion : with the dimensions sorted by their
strides, every dimension starts where the inner ones end, and together they fill the output.

The order of the dimensions does not change what a descriptor moves, and a dimension that starts
where the inner ones end continues their range. So such a descriptor moves the elements below the
output volume, each to its own position, as a raw copy does.
-/

open List

namespace TorchSpyre

open Checked Words

namespace Transfer

/-! ## Conversions -/

/-- The formats `narrowD2HRange` names, and the others with their number and stick size. -/
inductive DataFormats where
  | sen169Fp16
  | ieeeFp32
  | ieeeInt32
  | other (code elems : ℕ)
deriving DecidableEq

/-- The operation of a conversion. -/
inductive DataConvertOpFuncs where
  | generalShuffle
  | other (code : ℕ)
deriving DecidableEq

/-- A descriptor as the runtime holds it. -/
structure WordStrideInfo where
  size : List Int64
  strideSrc : List Int64
  strideDst : List Int64
  offsetSrc : Int64
  offsetDst : Int64
  length_src : strideSrc.length = size.length
  length_dst : strideDst.length = size.length
deriving DecidableEq

/-- The fields of a conversion that are read here. -/
structure DataConversionInfo where
  dataformatSrc : DataFormats
  dataformatDst : DataFormats
  dcOpName : DataConvertOpFuncs
  inputShape : List Int64
  outputShape : List Int64
  preInputShape : List Int64
  postOutputShape : List Int64
  preExpandDcsi : List WordStrideInfo
  postSliceDcsi : List WordStrideInfo
  inputDimwiseEa : List Int64
  outputDimwiseEa : List Int64
  useSpi : Bool
  usePca : Bool
  usePadVal : Bool
  useWli : Bool
  dcsi : List WordStrideInfo
deriving DecidableEq

/-- The sum of the indices, each times its stride. -/
def dot (index strides : List ℤ) : ℤ :=
  (List.zipWith (· * ·) index strides).sum

/-- All indices below the sizes. -/
def indices : List ℤ → List (List ℤ)
  | [] => [[]]
  | s :: sizes => (List.range s.toNat).flatMap fun i : ℕ => (indices sizes).map ((i : ℤ) :: ·)

namespace WordStrideInfo

variable (info : WordStrideInfo)

/-- The source position of an index. -/
def src (index : List ℤ) : ℤ :=
  info.offsetSrc.toInt + dot index (info.strideSrc.map Int64.toInt)

/-- The destination position of an index. -/
def dst (index : List ℤ) : ℤ :=
  info.offsetDst.toInt + dot index (info.strideDst.map Int64.toInt)

/-- The moves of a descriptor, from a source position to a destination position. -/
def moves : List (ℤ × ℤ) :=
  (indices (info.size.map Int64.toInt)).map fun i => (info.src i, info.dst i)

end WordStrideInfo

section Transfers

variable {α : Type}

/-- What moves make of a destination. -/
def transfer (moves : List (ℤ × ℤ)) (source target : ℤ → α) : ℤ → α :=
  moves.foldl (fun target m => Function.update target m.2 (source m.1)) target

/-- A raw copy of `n` elements. -/
def rawCopy (n : ℤ) (source target : ℤ → α) (p : ℤ) : α :=
  if 0 ≤ p ∧ p < n then source p else target p

end Transfers

/-! ## The test -/

section Identity

variable (fit : ℤ → Except Overflow ℤ)

/-- The loop over the sorted dimensions, each with its stride and size, and the number of elements
so far. `none` is the answer that it is no copy. -/
def denseLoop : List (ℤ × ℤ) → ℤ → Except Overflow (Option ℤ)
  | [], numel => .ok (some numel)
  | (stride, size) :: dims, numel =>
    if size < 1 then .ok none
    else if size = 1 then denseLoop dims numel
    else if stride ≠ numel then .ok none
    else do
      let numel ← fit (numel * size)
      denseLoop dims numel

/-- The product of a shape. -/
def shapeVolume (shape : List Int64) : Except Overflow ℤ :=
  foldE (fun volume (dim : Int64) => fit (volume * dim.toInt)) 1 shape

/-- `dci_is_identity_copy`, from the fields of the only descriptor on. -/
def denseCover (info : WordStrideInfo) (outputShape : List Int64) : Except Overflow Bool := do
  let dims := ((info.strideSrc.map Int64.toInt).zip (info.size.map Int64.toInt)).insertionSort
    fun a b => a.1 ≤ b.1
  match ← denseLoop fit dims 1 with
  | none => return false
  | some numel =>
    let volume ← shapeVolume fit outputShape
    return volume = numel

/-- `dci_is_identity_copy`. -/
def dciIsIdentityCopy (dci : DataConversionInfo) : Except Overflow Bool :=
  if dci.dataformatSrc ≠ dci.dataformatDst then .ok false
  else if dci.dcOpName ≠ .generalShuffle then .ok false
  else if dci.preInputShape ≠ [] ∨ dci.postOutputShape ≠ [] then .ok false
  else if dci.preExpandDcsi ≠ [] ∨ dci.postSliceDcsi ≠ [] then .ok false
  else if dci.inputDimwiseEa ≠ [] ∨ dci.outputDimwiseEa ≠ [] then .ok false
  else if dci.useSpi ∨ dci.usePca ∨ dci.usePadVal ∨ dci.useWli then .ok false
  else
    match dci.dcsi with
    | [info] =>
      if info.offsetSrc ≠ 0 ∨ info.offsetDst ≠ 0 then .ok false
      else if info.strideSrc ≠ info.strideDst then .ok false
      else if info.size.length = 0 ∨ info.strideSrc.length ≠ info.size.length then .ok false
      else denseCover fit info dci.outputShape
    | _ => .ok false

end Identity

/-! ## The elements of a descriptor -/

/-- The offsets of a list of dimensions, each with its stride and size. -/
def offsets : List (ℤ × ℤ) → List ℤ
  | [] => [0]
  | (stride, size) :: dims =>
    (List.range size.toNat).flatMap fun i : ℕ => (offsets dims).map ((i : ℤ) * stride + ·)

theorem map_dot_indices {sizes strides : List ℤ} (h : strides.length = sizes.length) :
    (indices sizes).map (dot · strides) = offsets (strides.zip sizes) := by
  induction sizes generalizing strides with
  | nil =>
    rw [length_nil, length_eq_zero_iff] at h
    subst h
    rfl
  | cons s sizes ih =>
    obtain ⟨t, strides, rfl⟩ := exists_cons_of_length_eq_add_one h
    rw [indices, zip_cons_cons, offsets, map_flatMap, ← ih (Nat.succ.inj h)]
    refine congrArg List.flatten (map_congr_left fun i _ => ?_)
    rw [map_map, map_map]
    refine map_congr_left fun index _ => ?_
    simp [dot]

variable {dims moves : List (ℤ × ℤ)} {α : Type}

theorem flatMap_comm {β γ : Type} (l : List α) (m : List β) (f : α → β → List γ) :
    (l.flatMap fun a => m.flatMap (f a)).Perm (m.flatMap fun b => l.flatMap (f · b)) := by
  have h := Multiset.bind_bind (l : Multiset α) (m : Multiset β)
    (f := fun a b => (f a b : Multiset γ))
  simp only [Multiset.coe_bind] at h
  exact Multiset.coe_eq_coe.mp h

/-- The order of the dimensions does not change the offsets. -/
theorem perm_offsets {dims' : List (ℤ × ℤ)} (h : dims.Perm dims') :
    (offsets dims).Perm (offsets dims') := by
  induction h with
  | nil => exact .refl _
  | cons d _ ih =>
    rw [offsets, offsets]
    exact List.Perm.flatMap_left _ fun i _ => ih.map _
  | swap d e dims =>
    simp only [offsets, map_flatMap, map_map]
    refine (flatMap_comm _ _ _).trans (List.Perm.flatMap_left _ fun i _ =>
      List.Perm.flatMap_left _ fun j _ => ?_)
    refine List.Perm.of_eq (map_congr_left fun x _ => ?_)
    simp only [Function.comp_apply]
    ring
  | trans _ _ ih ih' => exact ih.trans ih'

/-- The multiples of a number and what is between them. -/
theorem flatMap_range_mul (s k : ℕ) :
    ((List.range s).flatMap fun i => (List.range k).map (i + s * ·)).Perm
      (List.range (s * k)) := by
  induction k with
  | zero => simp
  | succ k ih =>
    have hsplit : ((List.range s).flatMap fun i => (List.range (k + 1)).map (i + s * ·)).Perm
        (((List.range s).flatMap fun i => (List.range k).map (i + s * ·)) ++
          (List.range s).map (· + s * k)) := by
      simp only [range_succ, map_append, map_singleton]
      refine (flatMap_append_perm _ _ _).symm.trans ?_
      rw [← flatMap_pure_eq_map]
      exact .refl _
    refine hsplit.trans ?_
    rw [Nat.mul_succ, range_add]
    refine ih.append (List.Perm.of_eq (map_congr_left fun i _ => Nat.add_comm _ _))

/-- Dimensions that start where the inner ones end cover a range. -/
theorem perm_offsets_of_denseLoop {n numel : ℤ} (h : denseLoop checked dims n = .ok (some numel)) :
    ∃ k : ℕ, 0 < k ∧ numel = n * k ∧
      (offsets dims).Perm ((List.range k).map fun e : ℕ => n * (e : ℤ)) := by
  induction dims generalizing n with
  | nil =>
    refine ⟨1, Nat.one_pos, ?_, ?_⟩
    · simpa [denseLoop] using h.symm
    · simp [offsets]
  | cons d dims ih =>
    obtain ⟨stride, size⟩ := d
    unfold denseLoop at h
    split_ifs at h with hpos hone hstride
    · cases Except.ok.inj h
    · obtain ⟨k, hk, hnumel, hperm⟩ := ih h
      refine ⟨k, hk, hnumel, ?_⟩
      simpa [offsets, hone] using hperm
    · cases Except.ok.inj h
    · obtain ⟨m, hm, h⟩ := bind_eq_ok_iff.mp h
      obtain ⟨-, rfl⟩ := checked_eq_ok_iff.mp hm
      obtain ⟨k, hk, hnumel, hperm⟩ := ih h
      obtain rfl : stride = n := not_not.mp hstride
      obtain ⟨s, rfl⟩ := Int.eq_ofNat_of_zero_le (by omega : 0 ≤ size)
      refine ⟨s * k, Nat.mul_pos (by omega) hk, ?_, ?_⟩
      · rw [hnumel]
        push_cast
        ring
      · have hmul := (flatMap_range_mul s k).map fun e : ℕ => stride * (e : ℤ)
        refine .trans ?_ hmul
        rw [offsets, map_flatMap]
        refine List.Perm.flatMap_left _ fun i _ => (hperm.map _).trans (List.Perm.of_eq ?_)
        rw [map_map, map_map]
        refine map_congr_left fun j _ => ?_
        simp only [Function.comp_apply]
        push_cast
        ring

theorem shapeVolume_eq {shape : List Int64} {volume : ℤ}
    (h : shapeVolume checked shape = .ok volume) : volume = (shape.map Int64.toInt).prod := by
  refine foldE_inv (I := fun done v => v = (done.map Int64.toInt).prod)
    (fun done dim _ v v' _ hv hstep => ?_) rfl h
  obtain ⟨-, rfl⟩ := checked_eq_ok_iff.mp hstep
  rw [hv, map_append, prod_append, map_singleton, prod_singleton]

/-! ## Copies -/

/-- A transfer that moves every position to itself writes what it reads. -/
theorem transfer_apply (h : ∀ m ∈ moves, m.1 = m.2) (source target : ℤ → α) (p : ℤ) :
    transfer moves source target p = if p ∈ moves.map Prod.snd then source p else target p := by
  induction moves generalizing target with
  | nil => rfl
  | cons m moves ih =>
    rw [transfer, foldl_cons, ← transfer, ih fun m hm => h m (mem_cons_of_mem _ hm)]
    have hm := h m mem_cons_self
    by_cases hp : p = m.2
    · subst hp
      simp [hm]
    · rw [map_cons, Function.update_of_ne hp]
      exact if_congr (by rw [mem_cons, or_iff_right hp]) rfl rfl

/-- A descriptor that moves the positions below `n` to themselves is a raw copy. -/
theorem transfer_eq_rawCopy {n : ℕ}
    (h : moves.Perm ((List.range n).map fun e : ℕ => ((e : ℤ), (e : ℤ)))) (source target : ℤ → α) :
    transfer moves source target = rawCopy n source target := by
  have hmem : ∀ m, m ∈ moves ↔ ∃ e : ℕ, e < n ∧ ((e : ℤ), (e : ℤ)) = m := fun m => by
    rw [h.mem_iff]
    simp
  funext p
  rw [transfer_apply (fun m hm => ?_), rawCopy]
  · refine if_congr ⟨?_, ?_⟩ rfl rfl
    · intro hp
      obtain ⟨m, hm, rfl⟩ := mem_map.mp hp
      obtain ⟨e, he, rfl⟩ := (hmem m).mp hm
      exact ⟨Int.natCast_nonneg e, Int.ofNat_lt.mpr he⟩
    · rintro ⟨hpos, hlt⟩
      obtain ⟨e, rfl⟩ := Int.eq_ofNat_of_zero_le hpos
      exact mem_map.mpr ⟨_, (hmem _).mpr ⟨e, by exact_mod_cast hlt, rfl⟩, rfl⟩
  · obtain ⟨e, -, rfl⟩ := (hmem m).mp hm
    rfl

/-- The moves of a descriptor that covers the output densely. -/
theorem perm_moves_of_denseCover {info : WordStrideInfo} {outputShape : List Int64}
    (hsrc : info.offsetSrc = 0) (hdst : info.offsetDst = 0)
    (hstride : info.strideSrc = info.strideDst)
    (h : denseCover checked info outputShape = .ok true) :
    ∃ n : ℕ, (outputShape.map Int64.toInt).prod = n ∧
      info.moves.Perm ((List.range n).map fun e : ℕ => ((e : ℤ), (e : ℤ))) := by
  unfold denseCover at h
  obtain ⟨r, hr, h⟩ := bind_eq_ok_iff.mp h
  cases r with
  | none => cases Except.ok.inj h
  | some numel =>
    obtain ⟨volume, hvolume, h⟩ := bind_eq_ok_iff.mp h
    have heq : volume = numel := of_decide_eq_true (Except.ok.inj h)
    obtain ⟨n, -, hnumel, hperm⟩ := perm_offsets_of_denseLoop hr
    refine ⟨n, by rw [← shapeVolume_eq hvolume, heq, hnumel, one_mul], ?_⟩
    have hlength : (info.strideSrc.map Int64.toInt).length =
        (info.size.map Int64.toInt).length := by simpa using info.length_src
    have hoffsets := map_dot_indices hlength
    have hsorted := (perm_offsets (perm_insertionSort (fun a b => a.1 ≤ b.1)
      ((info.strideSrc.map Int64.toInt).zip (info.size.map Int64.toInt)))).symm.trans hperm
    rw [← hoffsets] at hsorted
    have hmoves : info.moves = ((indices (info.size.map Int64.toInt)).map
        (dot · (info.strideSrc.map Int64.toInt))).map fun e => (e, e) := by
      rw [WordStrideInfo.moves, map_map]
      refine map_congr_left fun index _ => ?_
      simp [WordStrideInfo.src, WordStrideInfo.dst, hsrc, hdst, ← hstride]
    rw [hmoves]
    refine (hsorted.map _).trans (List.Perm.of_eq ?_)
    rw [map_map]
    refine map_congr_left fun e _ => ?_
    simp

/-- A conversion that is recognised as a copy has one descriptor, which moves every position below
the output volume to itself, once. So a raw copy of the output has the same effect. -/
theorem dciIsIdentityCopy_sound (dci : DataConversionInfo)
    (h : dciIsIdentityCopy checked dci = .ok true) :
    ∃ info, dci.dcsi = [info] ∧ ∃ volume : ℕ, (dci.outputShape.map Int64.toInt).prod = volume ∧
      info.moves.Perm ((List.range volume).map fun e : ℕ => ((e : ℤ), (e : ℤ))) ∧
      ∀ (α : Type) (source target : ℤ → α),
        transfer info.moves source target = rawCopy volume source target := by
  unfold dciIsIdentityCopy at h
  split_ifs at h with h1 h2 h3 h4 h5 h6
  all_goals try cases Except.ok.inj h
  split at h
  · rename_i info hinfo
    split_ifs at h with hoffset hstride hrank
    all_goals try cases Except.ok.inj h
    rw [not_or, not_not, not_not] at hoffset
    obtain ⟨volume, hvolume, hperm⟩ :=
      perm_moves_of_denseCover hoffset.1 hoffset.2 (not_not.mp hstride) h
    exact ⟨info, hinfo, volume, hvolume, hperm, fun α => transfer_eq_rawCopy hperm⟩
  · cases Except.ok.inj h

/-- The descriptor of two columns of three, stored one after the other, with an outer dimension of
size one. -/
def columnPair : WordStrideInfo where
  size := [2, 3, 1]
  strideSrc := [3, 1, 7]
  strideDst := [3, 1, 7]
  offsetSrc := 0
  offsetDst := 0
  length_src := rfl
  length_dst := rfl

/-- A conversion between equal formats with that descriptor. -/
def columnCopy : DataConversionInfo where
  dataformatSrc := .ieeeFp32
  dataformatDst := .ieeeFp32
  dcOpName := .generalShuffle
  inputShape := [2, 3, 1]
  outputShape := [2, 3, 1]
  preInputShape := []
  postOutputShape := []
  preExpandDcsi := []
  postSliceDcsi := []
  inputDimwiseEa := []
  outputDimwiseEa := []
  useSpi := false
  usePca := false
  usePadVal := false
  useWli := false
  dcsi := [columnPair]

theorem dciIsIdentityCopy_sound_columnCopy :
    ∃ info, columnCopy.dcsi = [info] ∧
      ∃ volume : ℕ, (columnCopy.outputShape.map Int64.toInt).prod = volume ∧
      info.moves.Perm ((List.range volume).map fun e : ℕ => ((e : ℤ), (e : ℤ))) ∧
      ∀ (α : Type) (source target : ℤ → α),
        transfer info.moves source target = rawCopy volume source target :=
  dciIsIdentityCopy_sound columnCopy rfl

end Transfer

end TorchSpyre
