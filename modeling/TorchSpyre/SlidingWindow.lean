import Mathlib
import TorchSpyre.Checked
import TorchSpyre.Loops

/-!
# Sliding windows over a KV cache

`sliding_window_plan.py`. The query rows of an attention are cut into blocks, and each block reads
one buffer of the cache, of the same width for all. A row means a logical position of the cache
and attends to the `window_size` positions that end there. A read is physical : row 0 of the
allocation is the logical position `buffer_origin`, which need not be on a stick.

A plan is `Sound` when it has what `rejection_reason` checks and the width `_required_width`
measures. A sound plan reads on stick boundaries inside the allocation
(`SlidingWindowPlan.Sound.read_inside`), and a block reads the whole window of each of its
rows (`SlidingWindowPlan.Sound.row_covered`), also where the last blocks are shifted back.
-/

namespace TorchSpyre

open Checked

namespace SlidingWindow

/-! ## The plan -/

/-- Elements per 128-byte stick at fp16. -/
def stick : ℤ :=
  64

/-- Logical position of physical row 0 for an exactly-full rolled buffer. -/
def defaultBufferOrigin (seqlenKv cacheCapacity : ℤ) : ℤ :=
  max 0 (seqlenKv - cacheCapacity)

/-- Round down to a stick boundary. -/
def floorStick (value : ℤ) : ℤ :=
  value / stick * stick

/-- Round up to a stick boundary. -/
def ceilStick (value : ℤ) : ℤ :=
  -(-value / stick) * stick

/-- Python's `-(-a // b)`. -/
def ceilDiv (a b : ℤ) : ℤ :=
  -(-a).fdiv b

/-- `SlidingWindowPlan`. -/
structure SlidingWindowPlan where
  seqlenQ : ℤ
  seqlenKv : ℤ
  windowSize : ℤ
  qBlock : ℤ
  numQBlocks : ℤ
  bufferWidth : ℤ
  qKvOffset : ℤ
  isCausal : Bool
  cacheCapacity : ℤ
  bufferOrigin : ℤ
deriving DecidableEq

namespace SlidingWindowPlan

variable (plan : SlidingWindowPlan)

/-- Half-open query-row range of Q block `qi`. -/
def blockQRange (qi : ℤ) : ℤ × ℤ :=
  let qStart := qi * plan.qBlock
  (qStart, min plan.seqlenQ (qStart + plan.qBlock))

/-- Half-open cache range query row `qIndex` may attend to. -/
def rowWindow (qIndex : ℤ) : ℤ × ℤ :=
  let coord := plan.qKvOffset + qIndex
  (max 0 (coord - plan.windowSize + 1), min plan.seqlenKv (coord + 1))

/-- Buffer-relative offset block `qi` reads from. -/
def readStart (qi : ℤ) : ℤ :=
  let firstCoord := plan.qKvOffset + (plan.blockQRange qi).1
  let windowStartLogical := max 0 (firstCoord - plan.windowSize + 1)
  let physicalOrigin := floorStick (windowStartLogical - plan.bufferOrigin)
  min physicalOrigin (plan.cacheCapacity - plan.bufferWidth)

/-- `readStart` converted back to a logical coordinate. -/
def readStartLogical (qi : ℤ) : ℤ :=
  plan.readStart qi + plan.bufferOrigin

end SlidingWindowPlan

/-- What block `qi` must cover, from where its read is floored to its last row. -/
def blockWidth (seqlenQ windowSize qBlock qKvOffset bufferOrigin qi : ℤ) : ℤ :=
  let qStart := qi * qBlock
  let qEnd := min seqlenQ (qStart + qBlock)
  let firstCoord := qKvOffset + qStart
  let lastCoord := qKvOffset + qEnd - 1
  let windowStartLogical := max 0 (firstCoord - windowSize + 1)
  let physicalStart := floorStick (windowStartLogical - bufferOrigin)
  let physicalEnd := (lastCoord - bufferOrigin) + 1
  physicalEnd - physicalStart

/-- `_required_width`. -/
def requiredWidth (seqlenQ windowSize qBlock qKvOffset bufferOrigin : ℤ) : ℤ :=
  ceilStick <|
    (List.range (ceilDiv seqlenQ qBlock).toNat).foldl
      (fun widest qi =>
        max widest (blockWidth seqlenQ windowSize qBlock qKvOffset bufferOrigin (qi : ℕ))) 0

/-- `rejection_reason`, `.ok` where the source returns `None`. -/
def rejectionReason (seqlenQ seqlenKv windowSize : ℤ) (isCausal : Bool) (qBlock : ℤ)
    (cacheCapacity bufferOrigin : Option ℤ) : Except String Unit := do
  guardE (isCausal = true) "bidirectional windows are not implemented, only causal ones"
  guardE (¬(seqlenQ ≤ 0 ∨ seqlenKv ≤ 0 ∨ qBlock ≤ 0))
    s!"degenerate lengths (seqlen_q={seqlenQ}, seqlen_kv={seqlenKv}, q_block={qBlock})"
  guardE (seqlenQ.fmod qBlock = 0)
    s!"seqlen_q={seqlenQ} is not a whole number of {qBlock}-row blocks"
  guardE (¬windowSize ≤ 0) s!"window_size={windowSize} must be positive"
  guardE (¬seqlenKv - seqlenQ < 0) s!"seqlen_q={seqlenQ} exceeds seqlen_kv={seqlenKv}"
  let effectiveCapacity := cacheCapacity.getD seqlenKv
  guardE (¬effectiveCapacity ≤ 0)
    s!"degenerate cache_capacity={effectiveCapacity}, must be positive"
  guardE (effectiveCapacity % stick = 0)
    (s!"cache_capacity={effectiveCapacity} must be a multiple of " ++
      s!"{stick}; pad the cache allocation to a stick boundary")
  let smallestOrigin := defaultBufferOrigin seqlenKv effectiveCapacity
  let origin := bufferOrigin.getD smallestOrigin
  guardE (¬origin < smallestOrigin)
    (s!"buffer_origin={origin} is too small: physical row 0 cannot " ++
      s!"hold a position earlier than {smallestOrigin}, or the newest " ++
      s!"token ({seqlenKv - 1}) would fall past the end of the " ++
      s!"{effectiveCapacity}-row buffer")
  guardE (¬origin ≥ seqlenKv)
    (s!"buffer_origin={origin} is not before seqlen_kv={seqlenKv}, " ++
      "so the buffer holds no written row")
  let qKvOffset := seqlenKv - seqlenQ
  let bufferWidth := requiredWidth seqlenQ windowSize qBlock qKvOffset origin
  guardE (¬effectiveCapacity < bufferWidth)
    (s!"cache_capacity={effectiveCapacity} is narrower than the " ++
      s!"{bufferWidth}-row buffer this window needs")
  let earliestWindowStart := max 0 (qKvOffset - windowSize + 1)
  guardE (¬earliestWindowStart < origin)
    (s!"cache_capacity={effectiveCapacity} does not reach far enough back " ++
      s!"for this {seqlenQ}-row query: the earliest block needs logical " ++
      s!"column {earliestWindowStart}, but the buffer's oldest " ++
      s!"resident row is {origin}")

/-- `plan_sliding_window`. -/
def planSlidingWindow (seqlenQ seqlenKv windowSize : ℤ) (isCausal : Bool) (qBlock : ℤ)
    (cacheCapacity bufferOrigin : Option ℤ) : Option SlidingWindowPlan :=
  match rejectionReason seqlenQ seqlenKv windowSize isCausal qBlock cacheCapacity bufferOrigin with
  | .error _ => none
  | .ok _ =>
    let capacity := cacheCapacity.getD seqlenKv
    let origin := bufferOrigin.getD (defaultBufferOrigin seqlenKv capacity)
    let qKvOffset := seqlenKv - seqlenQ
    some
      { seqlenQ, seqlenKv, windowSize, qBlock
        numQBlocks := ceilDiv seqlenQ qBlock
        bufferWidth := requiredWidth seqlenQ windowSize qBlock qKvOffset origin
        qKvOffset, isCausal
        cacheCapacity := capacity
        bufferOrigin := origin }

/-- How Python prints a tuple of integers. -/
def showTuple : List ℤ → String
  | [n] => s!"({n},)"
  | shape => "(" ++ ", ".intercalate (shape.map toString) ++ ")"

/-- `check_window_read`, `.ok` where the source returns `None`. -/
def checkWindowRead (readStart bufferWidth cacheCapacity numHeads numKvHeads : ℤ)
    (keyShape valueShape : List ℤ) : Except String Unit := do
  guardE (¬readStart < 0) s!"read_start={readStart} is negative"
  guardE (¬bufferWidth ≤ 0) s!"buffer_width={bufferWidth} must be positive"
  guardE (¬readStart + bufferWidth > cacheCapacity)
    (s!"window [{readStart}, {readStart + bufferWidth}) runs past the " ++
      s!"cache (cache_capacity={cacheCapacity})")
  guardE (¬(numKvHeads ≤ 0 ∨ numHeads.fmod numKvHeads ≠ 0))
    (s!"num_heads={numHeads} is not a whole multiple of " ++ s!"num_kv_heads={numKvHeads}")
  guardE (keyShape = valueShape)
    s!"key.shape={showTuple keyShape} does not match value.shape={showTuple valueShape}"

/-! ## Sticks -/

theorem stick_dvd_floorStick (value : ℤ) : stick ∣ floorStick value :=
  Dvd.intro_left _ rfl

theorem stick_dvd_ceilStick (value : ℤ) : stick ∣ ceilStick value :=
  Dvd.intro_left _ rfl

theorem floorStick_le (value : ℤ) : floorStick value ≤ value := by
  unfold floorStick stick
  omega

theorem floorStick_nonneg {value : ℤ} (h : 0 ≤ value) : 0 ≤ floorStick value := by
  unfold floorStick stick
  omega

theorem le_ceilStick (value : ℤ) : value ≤ ceilStick value := by
  unfold ceilStick stick
  omega

/-- The width is measured over all blocks. -/
theorem blockWidth_le_requiredWidth {seqlenQ windowSize qBlock qKvOffset bufferOrigin qi : ℤ}
    (hqi : 0 ≤ qi) (hlt : qi < ceilDiv seqlenQ qBlock) :
    blockWidth seqlenQ windowSize qBlock qKvOffset bufferOrigin qi ≤
      requiredWidth seqlenQ windowSize qBlock qKvOffset bufferOrigin := by
  refine le_trans ?_ (le_ceilStick _)
  have hmem : qi.toNat ∈ List.range (ceilDiv seqlenQ qBlock).toNat := by
    rw [List.mem_range]
    omega
  refine Loops.foldl_of_mem hmem (fun widest => ?_)
    (fun _ _ widest h => h.trans (le_max_left _ _)) 0
  rw [Int.toNat_of_nonneg hqi]
  exact le_max_right _ _

/-! ## What a plan is held to -/

/-- What `rejection_reason` has checked of a plan, and where its width comes from. -/
structure SlidingWindowPlan.Sound (plan : SlidingWindowPlan) : Prop where
  qBlock_pos : 0 < plan.qBlock
  windowSize_pos : 0 < plan.windowSize
  offset_nonneg : 0 ≤ plan.qKvOffset
  offset_add : plan.qKvOffset + plan.seqlenQ = plan.seqlenKv
  capacity_dvd : stick ∣ plan.cacheCapacity
  newest_resident : plan.seqlenKv ≤ plan.bufferOrigin + plan.cacheCapacity
  earliest_resident : plan.bufferOrigin ≤ max 0 (plan.qKvOffset - plan.windowSize + 1)
  width_dvd : stick ∣ plan.bufferWidth
  width_le : plan.bufferWidth ≤ plan.cacheCapacity
  blockWidth_le : ∀ qi, 0 ≤ qi → qi < plan.numQBlocks →
    blockWidth plan.seqlenQ plan.windowSize plan.qBlock plan.qKvOffset plan.bufferOrigin qi ≤
      plan.bufferWidth

/-- The plan is one for these arguments : its lengths, window and blocks are the given ones, and its
capacity and origin are given or defaulted. -/
structure SlidingWindowPlan.PlanFor (plan : SlidingWindowPlan) (seqlenQ seqlenKv windowSize : ℤ)
    (isCausal : Bool) (qBlock : ℤ) (cacheCapacity bufferOrigin : Option ℤ) : Prop where
  seqlenQ_eq : plan.seqlenQ = seqlenQ
  seqlenKv_eq : plan.seqlenKv = seqlenKv
  windowSize_eq : plan.windowSize = windowSize
  isCausal_eq : plan.isCausal = isCausal
  qBlock_eq : plan.qBlock = qBlock
  numQBlocks_eq : plan.numQBlocks * qBlock = seqlenQ
  qKvOffset_eq : plan.qKvOffset = seqlenKv - seqlenQ
  cacheCapacity_eq : plan.cacheCapacity = cacheCapacity.getD seqlenKv
  bufferOrigin_eq : plan.bufferOrigin = bufferOrigin.getD (max 0 (seqlenKv - plan.cacheCapacity))

/-- The planner returns sound plans for its arguments only. -/
theorem planSlidingWindow_sound {seqlenQ seqlenKv windowSize : ℤ} {isCausal : Bool} {qBlock : ℤ}
    {cacheCapacity bufferOrigin : Option ℤ} {plan : SlidingWindowPlan}
    (h : planSlidingWindow seqlenQ seqlenKv windowSize isCausal qBlock cacheCapacity bufferOrigin =
      some plan) :
    plan.Sound ∧
      plan.PlanFor seqlenQ seqlenKv windowSize isCausal qBlock cacheCapacity bufferOrigin := by
  unfold planSlidingWindow at h
  split at h
  · cases h
  · rename_i hreason
    obtain rfl := Option.some.inj h
    simp only [rejectionReason, bind_eq_ok_iff, guardE_eq_ok_iff, exists_const] at hreason
    obtain ⟨-, hlen, hblocks, hwindow, hq, -, hcap, horigin, -, hwidth, hearliest⟩ := hreason
    have hnewest : seqlenKv - cacheCapacity.getD seqlenKv ≤
        defaultBufferOrigin seqlenKv (cacheCapacity.getD seqlenKv) := le_max_right _ _
    have hblock : 0 < qBlock := by omega
    have hsize : 0 < windowSize := by omega
    have hoffset : 0 ≤ seqlenKv - seqlenQ := by omega
    have hresident : seqlenKv ≤ bufferOrigin.getD (defaultBufferOrigin seqlenKv
        (cacheCapacity.getD seqlenKv)) + cacheCapacity.getD seqlenKv := by omega
    refine ⟨⟨hblock, hsize, hoffset, sub_add_cancel _ _, Int.dvd_of_emod_eq_zero hcap, hresident,
      not_lt.mp hearliest, stick_dvd_ceilStick _, not_lt.mp hwidth,
      fun qi hqi hlt => blockWidth_le_requiredWidth hqi hlt⟩,
      ⟨rfl, rfl, rfl, rfl, rfl, ?_, rfl, rfl, rfl⟩⟩
    obtain ⟨k, rfl⟩ := Int.dvd_of_fmod_eq_zero hblocks
    dsimp only
    rw [ceilDiv, ← mul_neg, Int.mul_fdiv_cancel_left _ hblock.ne', neg_neg, mul_comm]

namespace SlidingWindowPlan.Sound

variable {plan : SlidingWindowPlan} {qi : ℤ}

/-- Every block reads whole sticks of the allocation. -/
theorem read_inside (hp : plan.Sound) (hqi : 0 ≤ qi) :
    0 ≤ plan.readStart qi ∧ plan.readStart qi + plan.bufferWidth ≤ plan.cacheCapacity ∧
      stick ∣ plan.readStart qi := by
  have hstart : 0 ≤ qi * plan.qBlock := mul_nonneg hqi hp.qBlock_pos.le
  have hearliest := hp.earliest_resident
  have hwidth := hp.width_le
  -- Later blocks start later, so what holds of the first block holds of all.
  have hfirst : 0 ≤ max 0 (plan.qKvOffset + qi * plan.qBlock - plan.windowSize + 1) -
      plan.bufferOrigin := by omega
  simp only [readStart, blockQRange]
  refine ⟨le_min (floorStick_nonneg hfirst) (by omega), ?_, ?_⟩
  · exact le_sub_iff_add_le.mp (min_le_right _ _)
  · rcases min_choice (floorStick (max 0 (plan.qKvOffset + qi * plan.qBlock -
      plan.windowSize + 1) - plan.bufferOrigin)) (plan.cacheCapacity - plan.bufferWidth) with h | h
    · rw [h]
      exact stick_dvd_floorStick _
    · rw [h]
      exact dvd_sub hp.capacity_dvd hp.width_dvd

variable {row : ℤ}

/-- A row sees at least its own position. -/
theorem row_nonempty (hp : plan.Sound) (hrow : 0 ≤ row) (hlt : row < plan.seqlenQ) :
    (plan.rowWindow row).1 < (plan.rowWindow row).2 := by
  have hwindow := hp.windowSize_pos
  have hoffset := hp.offset_nonneg
  have hadd := hp.offset_add
  simp only [rowWindow]
  omega

/-- A block reads the whole window of each of its rows. -/
theorem row_covered (hp : plan.Sound) (hqi : 0 ≤ qi) (hblock : qi < plan.numQBlocks)
    (hfirst : (plan.blockQRange qi).1 ≤ row) (hlast : row < (plan.blockQRange qi).2) :
    plan.readStartLogical qi ≤ (plan.rowWindow row).1 ∧
      (plan.rowWindow row).2 ≤ plan.readStartLogical qi + plan.bufferWidth := by
  have hwidth := hp.blockWidth_le qi hqi hblock
  have hnewest := hp.newest_resident
  have hfloor := floorStick_le (max 0 (plan.qKvOffset + qi * plan.qBlock - plan.windowSize + 1) -
    plan.bufferOrigin)
  simp only [blockQRange, lt_min_iff] at hfirst hlast
  simp only [blockWidth] at hwidth
  simp only [readStartLogical, readStart, rowWindow, blockQRange]
  -- Either the read is where the floor put it, or it ends where the allocation does.
  generalize floorStick (max 0 (plan.qKvOffset + qi * plan.qBlock - plan.windowSize + 1) -
    plan.bufferOrigin) = start at hfloor hwidth ⊢
  constructor
  · omega
  · omega

end SlidingWindowPlan.Sound

/-- Of a read on the cache `check_window_read` asks for heads and shapes, and nothing else. -/
theorem checkWindowRead_eq_ok_iff {readStart bufferWidth cacheCapacity : ℤ}
    (hstart : 0 ≤ readStart) (hwidth : 0 < bufferWidth)
    (hend : readStart + bufferWidth ≤ cacheCapacity) (numHeads numKvHeads : ℤ)
    (keyShape valueShape : List ℤ) :
    checkWindowRead readStart bufferWidth cacheCapacity numHeads numKvHeads keyShape valueShape =
        .ok () ↔
      0 < numKvHeads ∧ numKvHeads ∣ numHeads ∧ keyShape = valueShape := by
  simp only [checkWindowRead, bind_eq_ok_iff, guardE_eq_ok_iff, exists_const, not_lt, not_le,
    not_or, not_not, gt_iff_lt]
  constructor
  · rintro ⟨-, -, -, ⟨hpos, hmod⟩, hshape⟩
    exact ⟨hpos, Int.dvd_of_fmod_eq_zero hmod, hshape⟩
  · rintro ⟨hpos, hdvd, hshape⟩
    exact ⟨hstart, hwidth, hend, ⟨hpos, Int.fmod_eq_zero_of_dvd hdvd⟩, hshape⟩

/-- A plan is one for the arguments. Each of its blocks reads whole sticks inside the allocation,
and all that its rows attend to. -/
theorem planSlidingWindow_covers (seqlenQ seqlenKv windowSize : ℤ) (isCausal : Bool) (qBlock : ℤ)
    (cacheCapacity bufferOrigin : Option ℤ) (plan : SlidingWindowPlan)
    (h : planSlidingWindow seqlenQ seqlenKv windowSize isCausal qBlock cacheCapacity bufferOrigin =
      some plan)
    (qi : ℤ) (hqi : 0 ≤ qi) (hblock : qi < plan.numQBlocks)
    (row : ℤ) (hfirst : (plan.blockQRange qi).1 ≤ row) (hlast : row < (plan.blockQRange qi).2) :
    plan.PlanFor seqlenQ seqlenKv windowSize isCausal qBlock cacheCapacity bufferOrigin ∧
      0 ≤ plan.readStart qi ∧ plan.readStart qi + plan.bufferWidth ≤ plan.cacheCapacity ∧
      stick ∣ plan.readStart qi ∧ stick ∣ plan.bufferWidth ∧
      (plan.rowWindow row).1 < (plan.rowWindow row).2 ∧
      plan.readStartLogical qi ≤ (plan.rowWindow row).1 ∧
      (plan.rowWindow row).2 ≤ plan.readStartLogical qi + plan.bufferWidth ∧
      ∀ numHeads numKvHeads keyShape valueShape,
        checkWindowRead (plan.readStart qi) plan.bufferWidth plan.cacheCapacity numHeads numKvHeads
            keyShape valueShape = .ok () ↔
          0 < numKvHeads ∧ numKvHeads ∣ numHeads ∧ keyShape = valueShape := by
  obtain ⟨hp, hfor⟩ := planSlidingWindow_sound h
  obtain ⟨hstart, hend, haligned⟩ := hp.read_inside hqi
  have hrow : 0 ≤ row := le_trans (mul_nonneg hqi hp.qBlock_pos.le) hfirst
  have hnonempty := hp.row_nonempty hrow (lt_of_lt_of_le hlast (min_le_left _ _))
  obtain ⟨hlo, hhi⟩ := hp.row_covered hqi hblock hfirst hlast
  exact ⟨hfor, hstart, hend, haligned, hp.width_dvd, hnonempty, hlo, hhi,
    checkWindowRead_eq_ok_iff hstart (by omega) hend⟩

/-- A rolled buffer whose first row is not on a stick : the second block of a prefill. -/
theorem planSlidingWindow_covers_rolled :
    let plan : SlidingWindowPlan :=
      ⟨128, 1000, 100, 64, 2, 192, 872, true, 256, 744⟩
    planSlidingWindow 128 1000 100 true 64 (some 256) none = some plan ∧
      plan.readStart 1 + plan.bufferWidth ≤ plan.cacheCapacity ∧
      (plan.rowWindow 127).2 ≤ plan.readStartLogical 1 + plan.bufferWidth := by
  have hplan : planSlidingWindow 128 1000 100 true 64 (some 256) none =
      some ⟨128, 1000, 100, 64, 2, 192, 872, true, 256, 744⟩ := by decide +kernel
  have hcovers := planSlidingWindow_covers 128 1000 100 true 64 (some 256) none _ hplan 1
    (by decide) (by decide) 127 (by decide) (by decide)
  exact ⟨hplan, hcovers.2.2.1, hcovers.2.2.2.2.2.2.2.1⟩

/-! ## Self-contained problems -/

theorem ceilStick_le {value bound : ℤ} (h : value ≤ bound) (hbound : stick ∣ bound) :
    ceilStick value ≤ bound := by
  obtain ⟨k, rfl⟩ := hbound
  unfold ceilStick stick at *
  omega

/-- From an allocation that begins at position 0, the blocks need no more than is there. -/
theorem requiredWidth_le {seqlenQ seqlenKv : ℤ} (hkv : 0 ≤ seqlenKv) (hdvd : stick ∣ seqlenKv)
    (windowSize qBlock : ℤ) :
    requiredWidth seqlenQ windowSize qBlock (seqlenKv - seqlenQ) 0 ≤ seqlenKv := by
  refine ceilStick_le ?_ hdvd
  refine List.foldlRecOn (motive := fun widest => widest ≤ seqlenKv) _ _ hkv
    fun widest hwidest qi _ => max_le hwidest ?_
  have hstart := floorStick_nonneg
    (le_max_left 0 (seqlenKv - seqlenQ + (qi : ℤ) * qBlock - windowSize + 1))
  have hend := min_le_left seqlenQ ((qi : ℤ) * qBlock + qBlock)
  simp only [blockWidth, sub_zero]
  omega

/-- Without a capacity and an origin of its own, a problem is planned exactly when the lengths fit
together and the cache is whole sticks. -/
theorem rejectionReason_defaulted_iff (seqlenQ seqlenKv windowSize : ℤ) (isCausal : Bool)
    (qBlock : ℤ) :
    rejectionReason seqlenQ seqlenKv windowSize isCausal qBlock none none = .ok () ↔
      isCausal = true ∧ 0 < seqlenQ ∧ 0 < seqlenKv ∧ 0 < qBlock ∧ 0 < windowSize ∧
        qBlock ∣ seqlenQ ∧ seqlenQ ≤ seqlenKv ∧ stick ∣ seqlenKv := by
  have horigin : defaultBufferOrigin seqlenKv seqlenKv = 0 := by
    rw [defaultBufferOrigin, sub_self, max_self]
  simp only [rejectionReason, bind_eq_ok_iff, guardE_eq_ok_iff, exists_const, Option.getD_none,
    horigin, not_lt, not_le, not_or, ge_iff_le, le_refl, true_and]
  constructor
  · rintro ⟨hcausal, ⟨hq, hkv, hblock⟩, hmod, hwindow, hle, -, hstick, -⟩
    exact ⟨hcausal, hq, hkv, hblock, hwindow, Int.dvd_of_fmod_eq_zero hmod, by omega,
      Int.dvd_of_emod_eq_zero hstick⟩
  · rintro ⟨hcausal, hq, hkv, hblock, hwindow, hdvd, hle, hstick⟩
    exact ⟨hcausal, ⟨hq, hkv, hblock⟩, Int.fmod_eq_zero_of_dvd hdvd, hwindow, by omega, hkv,
      Int.emod_eq_zero_of_dvd hstick, hkv, requiredWidth_le hkv.le hstick _ _, le_max_left _ _⟩

end SlidingWindow

end TorchSpyre
