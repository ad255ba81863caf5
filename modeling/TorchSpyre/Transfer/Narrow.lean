import Mathlib
import TorchSpyre.Transfer.Conversion

/-!
# Narrowing the device range of a read

`narrowD2HRange` in `spyre_stream.cpp` bounds a read from the device to the sticks its descriptors
touch. It walks over the dimensions of every descriptor, and compares a step with the room that is
left before it multiplies. The touched range is rounded to whole sticks, and the descriptors are
moved so that they start there.

All arithmetic is over `fit`, so a run can be checked or wrapped. In an allocation of fewer than
`2 ^ 63` bytes no operation overflows. In a larger one the number of bytes before the range may not
fit, although the wrapped result is the right address.
-/

open List

namespace TorchSpyre

open Checked Words

namespace Transfer

/-! ## Allocations -/

/-- `ElementArrangement`. -/
inductive ElementArrangement where
  | standard
  | dl16ToFp32
  | qfp8ch
  | exx2
  | fp32ToDl16
  | qfp8wt
deriving DecidableEq

/-- A range of device memory. -/
structure Chunk where
  regionId : ℕ
  domainId : ℕ
  offset : ℕ
  size : ℕ
deriving DecidableEq

/-- The chunks of an allocation, which do not run past the end of the address space. -/
structure CompositeAddress where
  chunks : List Chunk
  size_lt : ∀ c ∈ chunks, c.size < 2 ^ 64
  end_le : ∀ c ∈ chunks, c.offset + c.size ≤ 2 ^ 64

/-- `elems_per_stick`. A stick has 128 bytes. -/
def elemsPerStick : DataFormats → ℤ
  | .sen169Fp16 => 64
  | .ieeeFp32 => 32
  | .ieeeInt32 => 32
  | .other _ elems => elems

/-- `element_bytes`. -/
def elementBytes (dtype : DataFormats) : ℤ :=
  Int.tdiv 128 (elemsPerStick dtype)

/-! ## The function -/

section Narrow

variable (fit : ℤ → Except Overflow ℤ)

/-- The test against the allocation, before the multiplication. -/
def beyond (allocationElements last step reach : ℤ) : Except Overflow Bool :=
  if 0 < step then do
    let top ← fit (allocationElements - 1)
    let room ← fit (top - last)
    return room.tdiv step < reach
  else
    .ok false

/-- The loop over the dimensions of a descriptor, each with its stride and size, and the last
position so far. `none` is a return without a range. -/
def endLoop (allocationElements : ℤ) : List (ℤ × ℤ) → ℤ → Except Overflow (Option ℤ)
  | [], last => .ok (some last)
  | (step, count) :: dims, last =>
    if count ≤ 0 ∨ step < 0 then .ok none
    else do
      let reach ← fit (count - 1)
      if ← beyond fit allocationElements last step reach then return none
      else
        let advance ← fit (reach * step)
        let last ← fit (last + advance)
        endLoop allocationElements dims last

/-- The loop over the descriptors, with the touched range so far. -/
def boundsLoop (allocationElements : ℤ) :
    List WordStrideInfo → ℤ → ℤ → Except Overflow (Option (ℤ × ℤ))
  | [], first, last => .ok (some (first, last))
  | info :: infos, first, last => do
    let start := info.offsetSrc.toInt
    if start < 0 ∨ allocationElements ≤ start then return none
    else
      match ← endLoop fit allocationElements
        ((info.strideSrc.map Int64.toInt).zip (info.size.map Int64.toInt)) start with
      | none => return none
      | some stop =>
        let next ← fit (stop + 1)
        boundsLoop allocationElements infos (min first start) (max last next)

/-- The touched range, in whole sticks. -/
def narrowBounds (stickElements allocationElements : ℤ) (infos : List WordStrideInfo) :
    Except Overflow (Option (ℤ × ℤ)) := do
  match ← boundsLoop fit allocationElements infos allocationElements 0 with
  | none => return none
  | some (first, last) =>
    let first ← fit (first.tdiv stickElements * stickElements)
    let last ← fit (last + stickElements)
    let last ← fit (last - 1)
    let last ← fit (last.tdiv stickElements * stickElements)
    if allocationElements < last ∨ last ≤ first ∨ first = 0 ∧ last = allocationElements then
      return none
    else
      return some (first, last)

/-- A descriptor, counted from a later element. -/
def rebase (first : ℤ) (info : WordStrideInfo) : Except Overflow WordStrideInfo := do
  let offset ← fit (info.offsetSrc.toInt - first)
  return { info with offsetSrc := Int64.ofInt offset }

/-- The part of the function that writes. The fields of a chunk are unsigned. -/
def narrowTo (dci : DataConversionInfo) (bytes : ℤ) (chunk : Chunk) (first last : ℤ) :
    Except Overflow (Option Chunk × DataConversionInfo) := do
  let shift ← fit (first * bytes)
  let length ← fit (last - first)
  let size ← fit (length * bytes)
  let dcsi ← mapE (rebase fit first) dci.dcsi
  return (some { chunk with
      offset := ((chunk.offset + shift) % 2 ^ 64).toNat
      size := (size % 2 ^ 64).toNat },
    { dci with
      dcsi
      inputShape := Int64.ofInt length :: List.replicate (dci.inputShape.length - 1) 1 })

/-- `narrowD2HRange`, with the conversion it leaves. -/
def narrowD2HRange (dci : DataConversionInfo) (arrangement : ElementArrangement)
    (dtype : DataFormats) (allocation : CompositeAddress) :
    Except Overflow (Option Chunk × DataConversionInfo) :=
  match allocation.chunks with
  | [chunk] =>
    if arrangement ≠ .standard ∨
        (dtype ≠ .sen169Fp16 ∧ dtype ≠ .ieeeFp32 ∧ dtype ≠ .ieeeInt32) ∨
        dci.dcsi = [] ∨ dci.inputShape = [] then
      .ok (none, dci)
    else do
      match ← narrowBounds fit (elemsPerStick dtype) (chunk.size / elementBytes dtype)
        dci.dcsi with
      | none => return (none, dci)
      | some (first, last) => narrowTo fit dci (elementBytes dtype) chunk first last
  | _ => .ok (none, dci)

end Narrow

/-! ## Checked runs -/

variable {dtype : DataFormats} {dims : List (ℤ × ℤ)} {info : WordStrideInfo}
  {first last n reach step : ℤ}

/-- The offsets of a dimension and those inside. -/
theorem mem_offsets_cons {o stride size : ℤ} (h : o ∈ offsets ((stride, size) :: dims)) :
    ∃ i : ℕ, (i : ℤ) < size ∧ ∃ o' ∈ offsets dims, o = i * stride + o' := by
  rw [offsets, mem_flatMap] at h
  obtain ⟨i, hi, h⟩ := h
  obtain ⟨o', ho', rfl⟩ := mem_map.mp h
  exact ⟨i, by have := mem_range.mp hi; omega, o', ho', rfl⟩

theorem beyond_eq (hn : Fits n) (hlast : 0 ≤ last) (hlt : last < n) :
    beyond checked n last step reach =
      .ok (decide (0 < step ∧ (n - 1 - last) / step < reach)) := by
  unfold Fits at hn
  have htop : Fits (n - 1) := ⟨by omega, by omega⟩
  have hroom : Fits (n - 1 - last) := ⟨by omega, by omega⟩
  unfold beyond
  split_ifs with hstep
  · rw [checked_bind htop, checked_bind hroom,
      Int.tdiv_eq_ediv_of_nonneg (by omega : 0 ≤ n - 1 - last)]
    simp [hstep, pure, Except.pure]
  · simp [hstep]

/-- A step that stays before the end does not overflow. -/
theorem advance_le (hlt : last < n) (hstep : 0 ≤ step)
    (hroom : ¬ (0 < step ∧ (n - 1 - last) / step < reach)) : reach * step ≤ n - 1 - last := by
  rcases hstep.lt_or_eq with hpos | rfl
  · rw [← Int.le_ediv_iff_mul_le hpos]
    exact not_lt.mp fun h => hroom ⟨hpos, h⟩
  · omega

/-- The loop over the dimensions does not overflow, and finds the last position. -/
theorem endLoop_spec (hn : Fits n) (hlast : 0 ≤ last) (hlt : last < n)
    (hdims : ∀ d ∈ dims, Fits d.2) :
    ∃ r, endLoop checked n dims last = .ok r ∧ ∀ stop, r = some stop →
      last ≤ stop ∧ stop < n ∧ ∀ o ∈ offsets dims, 0 ≤ o ∧ last + o ≤ stop := by
  induction dims generalizing last with
  | nil =>
    refine ⟨some last, rfl, fun stop hstop => ?_⟩
    obtain rfl := Option.some.inj hstop
    exact ⟨le_rfl, hlt, fun o ho => by simp [mem_singleton.mp ho]⟩
  | cons d dims ih =>
    obtain ⟨step, count⟩ := d
    have hcount : Fits count := hdims (step, count) mem_cons_self
    unfold endLoop
    split_ifs with hneg
    · exact ⟨none, rfl, fun _ h => by cases h⟩
    rw [not_or, not_le, not_lt] at hneg
    have hreach : Fits (count - 1) := ⟨by omega, (Int.sub_one_lt_of_le le_rfl).trans hcount.2⟩
    rw [checked_bind hreach, beyond_eq hn hlast hlt]
    by_cases hroom : 0 < step ∧ (n - 1 - last) / step < count - 1
    · rw [decide_eq_true hroom]
      exact ⟨none, rfl, fun _ h => by cases h⟩
    · have hadvance := advance_le hlt hneg.2 hroom
      have hnonneg : 0 ≤ (count - 1) * step := mul_nonneg (by omega) hneg.2
      have hfits : Fits ((count - 1) * step) := ⟨by omega, by have := hn.2; omega⟩
      have hsum : Fits (last + (count - 1) * step) := ⟨by omega, by have := hn.2; omega⟩
      rw [decide_eq_false hroom]
      show ∃ r, (checked ((count - 1) * step) >>= _) = .ok r ∧ _
      rw [checked_bind hfits, checked_bind hsum]
      have hlast' : 0 ≤ last + (count - 1) * step := by omega
      obtain ⟨r, hr, hspec⟩ := ih hlast' (by omega)
        fun d hd => hdims d (mem_cons_of_mem _ hd)
      refine ⟨r, hr, fun stop hstop => ?_⟩
      obtain ⟨hle, hstop_lt, hoffsets⟩ := hspec stop hstop
      refine ⟨by omega, hstop_lt, fun o ho => ?_⟩
      obtain ⟨i, hi, o', ho', rfl⟩ := mem_offsets_cons ho
      obtain ⟨hpos, hbound⟩ := hoffsets o' ho'
      have hmul : (i : ℤ) * step ≤ (count - 1) * step :=
        mul_le_mul_of_nonneg_right (by omega) hneg.2
      have hmul_nonneg : 0 ≤ (i : ℤ) * step := mul_nonneg (Int.natCast_nonneg i) hneg.2
      exact ⟨by omega, by omega⟩

/-- The dimensions of the source of a descriptor. -/
def sourceDims (info : WordStrideInfo) : List (ℤ × ℤ) :=
  (info.strideSrc.map Int64.toInt).zip (info.size.map Int64.toInt)

theorem fits_of_mem_sourceDims {d : ℤ × ℤ} (h : d ∈ sourceDims info) :
    Fits d.2 := by
  obtain ⟨x, -, hx⟩ := mem_map.mp (of_mem_zip h).2
  exact hx ▸ fits_toInt x

/-- The source positions of a descriptor lie in a range. -/
structure Within (first last : ℤ) (info : WordStrideInfo) : Prop where
  start_le : first ≤ info.offsetSrc.toInt
  lt_end : ∀ o ∈ offsets (sourceDims info), 0 ≤ o ∧ info.offsetSrc.toInt + o < last

theorem Within.mono {first' last' : ℤ} (h : Within first last info) (hfirst : first' ≤ first)
    (hlast : last ≤ last') : Within first' last' info :=
  ⟨hfirst.trans h.start_le, fun o ho => ⟨(h.lt_end o ho).1, (h.lt_end o ho).2.trans_le hlast⟩⟩

/-- The loop over the descriptors does not overflow, and bounds all their positions. -/
theorem boundsLoop_spec (hn : Fits n) {infos : List WordStrideInfo} (hfirst : 0 ≤ first)
    (hlast : 0 ≤ last) (hle : last ≤ n) :
    ∃ r, boundsLoop checked n infos first last = .ok r ∧ ∀ f l, r = some (f, l) →
      0 ≤ f ∧ f ≤ first ∧ last ≤ l ∧ l ≤ n ∧ ∀ info ∈ infos, Within f l info := by
  induction infos generalizing first last with
  | nil =>
    refine ⟨some (first, last), rfl, fun f l h => ?_⟩
    obtain ⟨rfl, rfl⟩ := Prod.mk.inj (Option.some.inj h)
    exact ⟨hfirst, le_rfl, le_rfl, hle, fun info h => by cases h⟩
  | cons info infos ih =>
    unfold boundsLoop
    dsimp only
    split_ifs with hstart
    · exact ⟨none, rfl, fun _ _ h => by cases h⟩
    rw [not_or, not_lt, not_le] at hstart
    have hdims : ∀ d ∈ sourceDims info, Fits d.2 := fun d hd => fits_of_mem_sourceDims hd
    obtain ⟨r, hr, hspec⟩ := endLoop_spec hn hstart.1 hstart.2 hdims
    unfold sourceDims at hr
    rw [hr]
    cases r with
    | none => exact ⟨none, rfl, fun _ _ h => by cases h⟩
    | some stop =>
      obtain ⟨hstop, hstop_lt, hoffsets⟩ := hspec stop rfl
      have hnext : Fits (stop + 1) := ⟨by omega, by have := hn.2; omega⟩
      show ∃ r, (checked (stop + 1) >>= _) = .ok r ∧ _
      rw [checked_bind hnext]
      have hfirst' : 0 ≤ min first info.offsetSrc.toInt := by omega
      have hlast' : 0 ≤ max last (stop + 1) := by omega
      obtain ⟨r, hr, hspec⟩ := ih hfirst' hlast' (by omega)
      refine ⟨r, hr, fun f l h => ?_⟩
      obtain ⟨hf, hf_le, hl, hl_le, hinfos⟩ := hspec f l h
      refine ⟨hf, by omega, by omega, hl_le,
        forall_mem_cons.mpr ⟨⟨by omega, fun o ho => ?_⟩, hinfos⟩⟩
      obtain ⟨hpos, hbound⟩ := hoffsets o ho
      exact ⟨hpos, by omega⟩

/-- The rounded range does not overflow and covers all positions with whole sticks. -/
theorem narrowBounds_spec {s : ℤ} (hs : 0 < s) (hn : 0 ≤ n) (hfits : n + s < 2 ^ 63)
    (infos : List WordStrideInfo) :
    ∃ r, narrowBounds checked s n infos = .ok r ∧ ∀ f l, r = some (f, l) →
      0 ≤ f ∧ f < l ∧ l ≤ n ∧ s ∣ f ∧ s ∣ l ∧ ∀ info ∈ infos, Within f l info := by
  have hloop : ∃ r, boundsLoop checked n infos n 0 = .ok r ∧ _ :=
    boundsLoop_spec ⟨by omega, by omega⟩ hn le_rfl hn
  obtain ⟨r, hr, hspec⟩ := hloop
  unfold narrowBounds
  rw [hr]
  cases r with
  | none => exact ⟨none, rfl, fun _ _ h => by cases h⟩
  | some bounds =>
    obtain ⟨first, last⟩ := bounds
    obtain ⟨hfirst, hfirst_le, hlast, hlast_le, hinfos⟩ := hspec first last rfl
    have hdown : first.tdiv s * s = first / s * s := by
      rw [Int.tdiv_eq_ediv_of_nonneg hfirst]
    have hup : (last + s - 1).tdiv s * s = (last + s - 1) / s * s := by
      rw [Int.tdiv_eq_ediv_of_nonneg (by omega)]
    have hdown_le : first / s * s ≤ first := Int.ediv_mul_le first hs.ne'
    have hdown_nonneg : 0 ≤ first / s * s :=
      mul_nonneg (Int.ediv_nonneg hfirst hs.le) hs.le
    have hup_le : (last + s - 1) / s * s ≤ last + s - 1 := Int.ediv_mul_le _ hs.ne'
    have hle_up : last ≤ (last + s - 1) / s * s := by
      have := Int.lt_ediv_add_one_mul_self (last + s - 1) hs
      rw [add_mul, one_mul] at this
      omega
    have hfits₁ : Fits (first.tdiv s * s) := by
      rw [hdown]
      exact ⟨by omega, by omega⟩
    have hfits₂ : Fits (last + s) := ⟨by omega, by omega⟩
    have hfits₃ : Fits (last + s - 1) := ⟨by omega, by omega⟩
    have hfits₄ : Fits ((last + s - 1).tdiv s * s) := by
      rw [hup]
      exact ⟨by omega, by omega⟩
    show ∃ r, (checked (first.tdiv s * s) >>= _) = .ok r ∧ _
    rw [checked_bind hfits₁, checked_bind hfits₂, checked_bind hfits₃, checked_bind hfits₄]
    split_ifs with hcheck
    · exact ⟨none, rfl, fun _ _ h => by cases h⟩
    · refine ⟨_, rfl, fun f l h => ?_⟩
      obtain ⟨rfl, rfl⟩ := Prod.mk.inj (Option.some.inj h)
      rw [not_or, not_or, not_lt, not_le] at hcheck
      rw [hdown, hup] at *
      exact ⟨hdown_nonneg, hcheck.2.1, hcheck.1, Int.dvd_mul_left _ _, Int.dvd_mul_left _ _,
        fun info hinfo => (hinfos info hinfo).mono hdown_le hle_up⟩

/-- The addresses in the device memory and the host positions of a descriptor. -/
def devicePairs (base : ℕ) (bytes : ℤ) (info : WordStrideInfo) : List (ℤ × ℤ) :=
  info.moves.map fun m => (base + m.1 * bytes, m.2)

/-- What a returned range and its conversion have in common with the allocation and the
conversion before. -/
structure NarrowedTo (dtype : DataFormats) (chunk : Chunk) (dci : DataConversionInfo)
    (range : Chunk) (dci' : DataConversionInfo) : Prop where
  region : range.regionId = chunk.regionId ∧ range.domainId = chunk.domainId
  start_le : chunk.offset ≤ range.offset
  end_le : range.offset + range.size ≤ chunk.offset + chunk.size
  start_aligned : 128 ∣ range.offset - chunk.offset
  size_aligned : 128 ∣ range.size
  inside : ∀ info ∈ dci'.dcsi, ∀ m ∈ info.moves,
    0 ≤ m.1 ∧ (m.1 + 1) * elementBytes dtype ≤ range.size
  pairs : dci'.dcsi.map (devicePairs range.offset (elementBytes dtype)) =
    dci.dcsi.map (devicePairs chunk.offset (elementBytes dtype))
  others : dci' = { dci with dcsi := dci'.dcsi, inputShape := dci'.inputShape }

/-- A descriptor, counted from element `first`. -/
def rebased (first : ℤ) (info : WordStrideInfo) : WordStrideInfo :=
  { info with offsetSrc := Int64.ofInt (info.offsetSrc.toInt - first) }

theorem rebase_eq (hfits : Fits (info.offsetSrc.toInt - first)) :
    rebase checked first info = .ok (rebased first info) := by
  rw [rebase, checked_bind hfits]
  rfl

theorem moves_rebased (hfits : Fits (info.offsetSrc.toInt - first)) :
    (rebased first info).moves = info.moves.map fun m => (m.1 - first, m.2) := by
  have hoffset : (rebased first info).offsetSrc.toInt = info.offsetSrc.toInt - first :=
    Int64.toInt_ofInt_of_le hfits.1 hfits.2
  rw [WordStrideInfo.moves, WordStrideInfo.moves, map_map]
  refine map_congr_left fun index _ => Prod.ext ?_ rfl
  show (rebased first info).offsetSrc.toInt + _ = info.offsetSrc.toInt + _ - first
  rw [hoffset, sub_add_eq_add_sub]
  rfl

theorem exists_offset_of_mem_moves {m : ℤ × ℤ} (hm : m ∈ info.moves) :
    ∃ o ∈ offsets (sourceDims info), m.1 = info.offsetSrc.toInt + o := by
  obtain ⟨index, hindex, rfl⟩ := mem_map.mp hm
  refine ⟨dot index (info.strideSrc.map Int64.toInt), ?_, rfl⟩
  rw [sourceDims, ← map_dot_indices (by simpa using info.length_src)]
  exact mem_map.mpr ⟨index, hindex, rfl⟩

/-- A stick of the formats that are narrowed has 128 bytes. -/
theorem stick_bytes {size : ℕ} (h : dtype = .sen169Fp16 ∨ dtype = .ieeeFp32 ∨ dtype = .ieeeInt32)
    (hsize : size < 2 ^ 63) :
    elemsPerStick dtype * elementBytes dtype = 128 ∧ 0 < elementBytes dtype ∧
      0 < elemsPerStick dtype ∧
      (size : ℤ) / elementBytes dtype + elemsPerStick dtype < 2 ^ 63 := by
  rcases h with rfl | rfl | rfl
  · have hbytes : elementBytes .sen169Fp16 = 2 := rfl
    rw [hbytes, elemsPerStick]
    omega
  · have hbytes : elementBytes .ieeeFp32 = 4 := rfl
    rw [hbytes, elemsPerStick]
    omega
  · have hbytes : elementBytes .ieeeInt32 = 4 := rfl
    rw [hbytes, elemsPerStick]
    omega

/-- The writing part, for a range of whole sticks that covers all positions. -/
theorem narrowTo_spec {dci : DataConversionInfo} {chunk : Chunk}
    (hsticks : elemsPerStick dtype * elementBytes dtype = 128) (hbytes : 0 < elementBytes dtype)
    (hend : chunk.offset + chunk.size ≤ 2 ^ 64) (hsize : chunk.size < 2 ^ 63)
    (hn : n * elementBytes dtype ≤ chunk.size) (hfirst : 0 ≤ first) (hlt : first < last)
    (hlast : last ≤ n) (hdvd : elemsPerStick dtype ∣ first) (hdvd' : elemsPerStick dtype ∣ last)
    (hinfos : ∀ info ∈ dci.dcsi, Within first last info) :
    ∃ range dci', narrowTo checked dci (elementBytes dtype) chunk first last =
      .ok (some range, dci') ∧ NarrowedTo dtype chunk dci range dci' := by
  set w := elementBytes dtype with hw
  have hbefore : 0 ≤ first * w := mul_nonneg hfirst hbytes.le
  have hlength : 0 < (last - first) * w := mul_pos (by omega) hbytes
  have hlast_le : last * w ≤ chunk.size := (mul_le_mul_of_nonneg_right hlast hbytes.le).trans hn
  have hsum : first * w + (last - first) * w = last * w := by ring
  have hbig : (chunk.size : ℤ) < 2 ^ 63 := by exact_mod_cast hsize
  have hspan : last - first ≤ (last - first) * w := le_mul_of_one_le_right (by omega) hbytes
  have hshift_fits : Fits (first * w) := ⟨by omega, by omega⟩
  have hlength_fits : Fits (last - first) := ⟨by omega, by omega⟩
  have hsize_fits : Fits ((last - first) * w) := ⟨by omega, by omega⟩
  have hrebase : ∀ info ∈ dci.dcsi, Fits (info.offsetSrc.toInt - first) := fun info hinfo => by
    have := (fits_toInt info.offsetSrc).2
    have := (hinfos info hinfo).start_le
    exact ⟨by omega, by omega⟩
  have hdcsi : mapE (rebase checked first) dci.dcsi = .ok (dci.dcsi.map (rebased first)) :=
    mapE_eq_map fun info hinfo => rebase_eq (hrebase info hinfo)
  have hoffset :
      ((chunk.offset + first * w) % 2 ^ 64).toNat = chunk.offset + (first * w).toNat := by
    rw [Int.emod_eq_of_lt (by omega) (by omega)]
    omega
  have hsize_eq : ((last - first) * w % 2 ^ 64).toNat = ((last - first) * w).toNat := by
    rw [Int.emod_eq_of_lt hlength.le (by omega)]
  refine ⟨⟨chunk.regionId, chunk.domainId, chunk.offset + (first * w).toNat,
    ((last - first) * w).toNat⟩, { dci with
      dcsi := dci.dcsi.map (rebased first)
      inputShape := Int64.ofInt (last - first) ::
        List.replicate (dci.inputShape.length - 1) 1 }, ?_, ?_⟩
  · rw [narrowTo, checked_bind hshift_fits, checked_bind hlength_fits, checked_bind hsize_fits,
      hdcsi, hoffset, hsize_eq]
    rfl
  · have hdvd_start : (128 : ℤ) ∣ first * w := hsticks ▸ mul_dvd_mul_right hdvd w
    have hdvd_size : (128 : ℤ) ∣ (last - first) * w :=
      hsticks ▸ mul_dvd_mul_right (dvd_sub hdvd' hdvd) w
    refine
      { region := ⟨rfl, rfl⟩
        start_le := by dsimp only; omega
        end_le := by dsimp only; omega
        start_aligned := by dsimp only; omega
        size_aligned := by dsimp only; omega
        inside := ?_
        pairs := ?_
        others := rfl }
    · dsimp only
      intro info hinfo m hm
      obtain ⟨info, hmem, rfl⟩ := mem_map.mp hinfo
      rw [moves_rebased (hrebase info hmem)] at hm
      obtain ⟨m', hm', rfl⟩ := mem_map.mp hm
      obtain ⟨o, ho, hsrc⟩ := exists_offset_of_mem_moves hm'
      obtain ⟨hstart, hoffsets⟩ := hinfos info hmem
      obtain ⟨hpos, hbound⟩ := hoffsets o ho
      dsimp only
      rw [Int.toNat_of_nonneg hlength.le]
      exact ⟨by omega, mul_le_mul_of_nonneg_right (by omega) hbytes.le⟩
    · dsimp only
      rw [map_map]
      refine map_congr_left fun info hinfo => ?_
      rw [Function.comp_apply, devicePairs, devicePairs, moves_rebased (hrebase info hinfo),
        map_map]
      refine map_congr_left fun m _ => Prod.ext ?_ rfl
      simp only [Function.comp_apply]
      push_cast
      rw [Int.toNat_of_nonneg hbefore]
      ring

/-! ## Wrapped runs -/

theorem refines_beyond (n last step reach : ℤ) :
    Refines (beyond checked n last step reach) (beyond wrapped n last step reach) :=
  .ite (.fit fun _ => .fit fun _ => .refl _) (.refl _)

theorem refines_endLoop (n : ℤ) (dims : List (ℤ × ℤ)) (last : ℤ) :
    Refines (endLoop checked n dims last) (endLoop wrapped n dims last) := by
  induction dims generalizing last with
  | nil => exact .refl _
  | cons d dims ih =>
    unfold endLoop
    exact .ite (.refl _) (.fit fun _ => .bind (refines_beyond _ _ _ _) fun _ => .ite (.refl _)
      (.fit fun _ => .fit fun _ => ih _))

theorem refines_boundsLoop (n : ℤ) (infos : List WordStrideInfo) (first last : ℤ) :
    Refines (boundsLoop checked n infos first last) (boundsLoop wrapped n infos first last) := by
  induction infos generalizing first last with
  | nil => exact .refl _
  | cons info infos ih =>
    unfold boundsLoop
    refine .ite (.refl _) (.bind (refines_endLoop _ _ _) fun r => ?_)
    cases r with
    | none => exact .refl _
    | some stop => exact .fit fun _ => ih _ _

theorem refines_narrowBounds (s n : ℤ) (infos : List WordStrideInfo) :
    Refines (narrowBounds checked s n infos) (narrowBounds wrapped s n infos) := by
  refine .bind (refines_boundsLoop _ _ _ _) fun r => ?_
  cases r with
  | none => exact .refl _
  | some bounds => exact .fit fun _ => .fit fun _ => .fit fun _ => .fit fun _ => .refl _

theorem refines_narrowTo (dci : DataConversionInfo) (bytes : ℤ) (chunk : Chunk) (first last : ℤ) :
    Refines (narrowTo checked dci bytes chunk first last)
      (narrowTo wrapped dci bytes chunk first last) := by
  have hrebase : ∀ info, Refines (rebase checked first info) (rebase wrapped first info) :=
    fun info => .fit fun _ => .refl _
  exact .fit fun _ => .fit fun _ => .fit fun _ =>
    .bind (fun _ h => mapE_congr h fun info _ => hrebase info) fun _ => .refl _

/-- A run that does not overflow is the run of the machine. -/
theorem refines_narrowD2HRange (dci : DataConversionInfo) (arrangement : ElementArrangement)
    (dtype : DataFormats) (allocation : CompositeAddress) :
    Refines (narrowD2HRange checked dci arrangement dtype allocation)
      (narrowD2HRange wrapped dci arrangement dtype allocation) := by
  unfold narrowD2HRange
  split
  · refine .ite (.refl _) (.bind (refines_narrowBounds _ _ _) fun r => ?_)
    cases r with
    | none => exact .refl _
    | some bounds => exact refines_narrowTo _ _ _ _ _
  · exact .refl _

/-! ## The range -/

/-- In an allocation of fewer than `2 ^ 63` bytes no operation overflows. A returned range consists
of whole sticks of the allocation and holds every position of every descriptor, and the moved
descriptors name the same addresses and host positions. Without a range the conversion is
unchanged. -/
theorem narrowD2HRange_spec (dci : DataConversionInfo) (arrangement : ElementArrangement)
    (dtype : DataFormats) (allocation : CompositeAddress)
    (hsize : ∀ chunk ∈ allocation.chunks, chunk.size < 2 ^ 63) :
    ∃ range dci', narrowD2HRange wrapped dci arrangement dtype allocation = .ok (range, dci') ∧
      narrowD2HRange checked dci arrangement dtype allocation = .ok (range, dci') ∧
      (range = none → dci' = dci) ∧ ∀ c, range = some c →
        ∃ chunk, allocation.chunks = [chunk] ∧ NarrowedTo dtype chunk dci c dci' := by
  suffices hchecked : ∃ range dci',
      narrowD2HRange checked dci arrangement dtype allocation = .ok (range, dci') ∧
      (range = none → dci' = dci) ∧ ∀ c, range = some c →
        ∃ chunk, allocation.chunks = [chunk] ∧ NarrowedTo dtype chunk dci c dci' by
    obtain ⟨range, dci', hrun, hspec⟩ := hchecked
    exact ⟨range, dci', refines_narrowD2HRange dci arrangement dtype allocation _ hrun, hrun, hspec⟩
  have hnothing : ∃ range dci', (.ok (none, dci) : Except Overflow _) = .ok (range, dci') ∧
      (range = none → dci' = dci) ∧ ∀ c, range = some c →
        ∃ chunk, allocation.chunks = [chunk] ∧ NarrowedTo dtype chunk dci c dci' :=
    ⟨none, dci, rfl, fun _ => rfl, fun _ h => by cases h⟩
  unfold narrowD2HRange
  split
  · rename_i chunk hchunk
    split_ifs with hguard
    · exact hnothing
    have hmem : chunk ∈ allocation.chunks := by simp [hchunk]
    have hbound := hsize chunk hmem
    have hdtype : dtype = .sen169Fp16 ∨ dtype = .ieeeFp32 ∨ dtype = .ieeeInt32 := by
      by_contra h
      exact hguard (.inr (.inl (by simpa only [not_or] using h)))
    obtain ⟨hsticks, hbytes, helems, hfits⟩ := stick_bytes hdtype hbound
    obtain ⟨r, hr, hspec⟩ := narrowBounds_spec helems
      (Int.ediv_nonneg (Int.natCast_nonneg _) hbytes.le) hfits dci.dcsi
    rw [hr]
    cases r with
    | none => exact hnothing
    | some bounds =>
      obtain ⟨first, last⟩ := bounds
      obtain ⟨hfirst, hlt, hlast, hdvd, hdvd', hinfos⟩ := hspec first last rfl
      obtain ⟨range, dci', hrun, hnarrowed⟩ := narrowTo_spec hsticks hbytes
        (allocation.end_le chunk hmem) hbound (Int.ediv_mul_le _ hbytes.ne') hfirst hlt hlast hdvd
        hdvd' hinfos
      refine ⟨some range, dci', hrun, (fun h => by cases h), fun c hc => ?_⟩
      obtain rfl := Option.some.inj hc
      exact ⟨chunk, hchunk, hnarrowed⟩
  · exact hnothing

/-- Reading half-precision elements with one descriptor. -/
def halfRead (info : WordStrideInfo) : DataConversionInfo where
  dataformatSrc := .sen169Fp16
  dataformatDst := .sen169Fp16
  dcOpName := .generalShuffle
  inputShape := [64, 8]
  outputShape := [2, 3]
  preInputShape := []
  postOutputShape := []
  preExpandDcsi := []
  postSliceDcsi := []
  inputDimwiseEa := []
  outputDimwiseEa := []
  useSpi := false
  usePca := false
  usePadVal := false
  useWli := false
  dcsi := [info]

/-- Two elements of each of three sticks. -/
def threeSticks : WordStrideInfo where
  size := [2, 3]
  strideSrc := [1, 64]
  strideDst := [1, 2]
  offsetSrc := 70
  offsetDst := 0
  length_src := rfl
  length_dst := rfl

/-- Eight sticks of memory. -/
def eightSticks : CompositeAddress where
  chunks := [⟨1, 0, 4096, 1024⟩]
  size_lt := by decide
  end_le := by decide

theorem narrowD2HRange_spec_threeSticks :
    (∃ dci', narrowD2HRange checked (halfRead threeSticks) .standard .sen169Fp16 eightSticks =
      .ok (some ⟨1, 0, 4224, 384⟩, dci')) ∧
    ∃ range dci', narrowD2HRange wrapped (halfRead threeSticks) .standard .sen169Fp16 eightSticks =
        .ok (range, dci') ∧
      narrowD2HRange checked (halfRead threeSticks) .standard .sen169Fp16 eightSticks =
        .ok (range, dci') ∧
      (range = none → dci' = halfRead threeSticks) ∧ ∀ c, range = some c →
        ∃ chunk, eightSticks.chunks = [chunk] ∧
          NarrowedTo .sen169Fp16 chunk (halfRead threeSticks) c dci' :=
  ⟨⟨_, rfl⟩, narrowD2HRange_spec (halfRead threeSticks) .standard .sen169Fp16 eightSticks
    (by decide)⟩

/-- One element, far out. -/
def farElement : WordStrideInfo where
  size := [1]
  strideSrc := [1]
  strideDst := [1]
  offsetSrc := 4611686018427387904
  offsetDst := 0
  length_src := rfl
  length_dst := rfl

/-- Two sticks more than half of the address space. -/
def halfSpace : CompositeAddress where
  chunks := [⟨1, 0, 0, 2 ^ 63 + 256⟩]
  size_lt := by decide
  end_le := by decide

/-- A range is returned, although the number of bytes before it does not fit. -/
theorem farElement_overflows :
    (∃ dci', narrowD2HRange wrapped (halfRead farElement) .standard .sen169Fp16 halfSpace =
      .ok (some ⟨1, 0, 2 ^ 63, 128⟩, dci')) ∧
    narrowD2HRange checked (halfRead farElement) .standard .sen169Fp16 halfSpace =
      .error .overflow :=
  ⟨⟨_, rfl⟩, rfl⟩

end Transfer

end TorchSpyre
