import Mathlib
import TorchSpyre.Binary64
import TorchSpyre.Checked

/-!
# The capacity of the scratchpad

What the allocator passes to a layout solver (`scratchpad/allocator.py`) : the share of the
tracker's capacity that is not left to the backend, rounded up to the allocation
granularity. It is far below `2⁵³` (`lxPlanningSize_lt`), where integers stop being exact
in floating point.
-/

namespace TorchSpyre

open Checked

/-- The next multiple of the alignment. -/
def roundUpToAlignment (arg alignment : ℕ) : ℕ :=
  (arg + alignment - 1) / alignment * alignment

theorem le_roundUpToAlignment {alignment : ℕ} (hal : 0 < alignment) (arg : ℕ) :
    arg ≤ roundUpToAlignment arg alignment := by
  unfold roundUpToAlignment
  have h₁ := Nat.div_add_mod (arg + alignment - 1) alignment
  have h₂ := Nat.mod_lt (arg + alignment - 1) hal
  rw [mul_comm] at h₁
  omega

theorem roundUpToAlignment_le (arg alignment : ℕ) :
    roundUpToAlignment arg alignment ≤ arg + alignment - 1 :=
  Nat.div_mul_le_self _ _

theorem dvd_roundUpToAlignment (arg alignment : ℕ) :
    alignment ∣ roundUpToAlignment arg alignment :=
  Dvd.intro_left _ rfl

/-- What the tracker has : 2 MiB without 64 KiB. -/
def lxTrackerCapacityBytes : ℕ :=
  2 * 2 ^ 20 - 64 * 2 ^ 10

/-- The granularity of an allocation. -/
def lxAllocationGranularityBytes : ℕ :=
  128

/-- The capacity for a fraction left to the backend. The product is in floating point and is
truncated. -/
def lxPlanningSize (backendFraction : ℚ) : Except String ℕ := do
  guardE (0 ≤ backendFraction ∧ backendFraction ≤ 1) "DXP_LX_FRAC_AVAIL must be >=0 and <=1"
  return roundUpToAlignment
    ⌊Binary64.nearest (lxTrackerCapacityBytes * Binary64.nearest (1 - backendFraction))⌋.toNat
    lxAllocationGranularityBytes

theorem nearest_le {q : ℚ} (hq : 0 ≤ q) : Binary64.nearest q ≤ 2 * q := by
  rcases hq.eq_or_lt with rfl | hpos
  · simp [Binary64.nearest]
  · have := abs_le.1 (Binary64.abs_nearest_sub_le hpos)
    have : q / 2 ^ 53 ≤ q := div_le_self hq (by norm_num)
    linarith

theorem nearest_nonneg {q : ℚ} (hq : 0 ≤ q) : 0 ≤ Binary64.nearest q := by
  rcases hq.eq_or_lt with rfl | hpos
  · simp [Binary64.nearest]
  · have := abs_le.1 (Binary64.abs_nearest_sub_le hpos)
    have : q / 2 ^ 53 ≤ q := div_le_self hq (by norm_num)
    linarith

/-- Every capacity a solver is given divides exactly. -/
theorem lxPlanningSize_lt {backendFraction : ℚ} {n : ℕ}
    (h : lxPlanningSize backendFraction = .ok n) : n < 2 ^ 53 := by
  obtain ⟨u, hrange, hn⟩ := bind_eq_ok_iff.1 h
  obtain ⟨h₀, h₁⟩ := guardE_eq_ok_iff.1 hrange
  obtain rfl := Except.ok.inj hn
  have hfrac : Binary64.nearest (1 - backendFraction) ≤ 2 := by
    refine (nearest_le (by linarith)).trans ?_
    linarith
  have hcap : (lxTrackerCapacityBytes : ℚ) = 2031616 := by norm_num [lxTrackerCapacityBytes]
  have hnn := nearest_nonneg (q := 1 - backendFraction) (by linarith)
  have hprod : Binary64.nearest (lxTrackerCapacityBytes * Binary64.nearest (1 - backendFraction)) ≤
      8126464 := by
    refine (nearest_le (by positivity)).trans ?_
    rw [hcap]
    linarith
  have hfloor : ⌊Binary64.nearest
      (lxTrackerCapacityBytes * Binary64.nearest (1 - backendFraction))⌋ ≤ 8126464 :=
    Int.floor_le_iff.2 (by push_cast; linarith)
  have hround := roundUpToAlignment_le
    ⌊Binary64.nearest
      (lxTrackerCapacityBytes * Binary64.nearest (1 - backendFraction))⌋.toNat
    lxAllocationGranularityBytes
  unfold lxAllocationGranularityBytes at hround ⊢
  omega

end TorchSpyre
