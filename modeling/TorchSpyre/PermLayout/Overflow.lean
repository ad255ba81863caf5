import Mathlib
import TorchSpyre.PermLayout.Sweep

/-!
# When the packer's sums fit

The tops of placed buffers are within the capacity, so the sums of a pass are at most a capacity,
an alignment and a size. Where that leaves room below `2 ^ 63` (`Room`) no sum of the pass
overflows (`overflowed_recomputeAll`), and the exact sums of the model are those of the program.
-/

open List

namespace TorchSpyre

open Words

namespace PermLayout

/-- A capacity, an alignment and a size of any buffer add up to less than `2 ^ 63`. -/
def Room (st : StaticData) (sizes : ℕ → ℤ) : Prop :=
  ∀ i < st.n, max st.capacity 0 + st.alignment + sizes i < 2 ^ 63

section Sums

variable {st : StaticData} {sizes : ℕ → ℤ} {address : ℕ → Option ℤ} {idx : ℕ} {m : ℤ}

theorem alignUp_lt (hal : 0 < st.alignment) (hm : 0 ≤ m) : alignUp st m < m + st.alignment := by
  unfold alignUp
  rw [Int.tdiv_eq_ediv_of_nonneg (by omega)]
  have := Int.ediv_mul_le (m + st.alignment - 1) hal.ne'
  omega

variable (hal : 0 < st.alignment) (hsize : 0 ≤ sizes idx)
  (hroom : max st.capacity 0 + st.alignment + sizes idx < 2 ^ 63)
include hal hsize hroom

theorem fits_of_mem_stackSums (h₀ : 0 ≤ m) (hm : m ≤ max st.capacity 0) :
    ∀ v ∈ stackSums st sizes idx m, Fits v := by
  have hle := le_alignUp hal h₀
  have hlt := alignUp_lt hal h₀
  generalize max st.capacity 0 = top at hroom hm
  simp only [stackSums, forall_mem_cons, Fits, not_mem_nil, false_imp_iff, implies_true, and_true]
  omega

variable {cand : List ℕ}
  (hplaced : ∀ p ∈ cand, ∀ a, address p = some a → 0 ≤ a ∧ 0 ≤ sizes p ∧ a + sizes p ≤ st.capacity)

include hplaced

theorem fits_of_mem_partnerSums (hnil : cand ≠ []) (hsome : ∀ p ∈ cand, address p ≠ none)
    (partners : List ℕ) : ∀ v ∈ partnerSums st sizes address idx cand partners, Fits v := by
  have htop : ∀ p ∈ cand, 0 ≤ top sizes address p ∧ top sizes address p ≤ st.capacity := by
    intro p hp
    obtain ⟨a, ha⟩ := Option.ne_none_iff_exists'.mp (hsome p hp)
    obtain ⟨h₀, hs, hcap⟩ := hplaced p hp a ha
    rw [top, ha, Option.getD_some]
    omega
  induction partners with
  | nil =>
    obtain ⟨p, hp⟩ := exists_mem_of_ne_nil cand hnil
    have hmax : top sizes address p ≤ maxTop sizes address (-2 ^ 63) cand :=
      (maxTop_le_iff.mp le_rfl).2 p hp
    refine fits_of_mem_stackSums hal hsize hroom ((htop p hp).1.trans hmax) ?_
    refine maxTop_le_iff.mpr ⟨?_, fun q hq => (htop q hq).2.trans (le_max_left _ _)⟩
    exact le_max_of_le_right (by norm_num)
  | cons partner rest ih =>
    rw [partnerSums]
    split_ifs with h
    · obtain ⟨a, ha⟩ := Option.ne_none_iff_exists'.mp (hsome partner h.1)
      obtain ⟨h₀, hs, hcap⟩ := hplaced partner h.1 a ha
      have hle := le_max_left st.capacity 0
      generalize max st.capacity 0 = top at hroom hle
      rw [forall_mem_singleton, ha, Option.getD_some, Fits]
      omega
    · exact ih

theorem fits_of_mem_placeSums : ∀ v ∈ placeSums st sizes address idx cand, Fits v := by
  unfold placeSums
  split_ifs with hnil hnone
  · exact fun v hv => nomatch hv
  · exact fun v hv => nomatch hv
  have hsome : ∀ p ∈ cand, address p ≠ none := fun p hp hp' =>
    hnone (any_isNone_iff.mpr ⟨p, hp, hp'⟩)
  refine forall_mem_append.mpr ⟨forall_mem_map.mpr fun p hp => ?_,
    fits_of_mem_partnerSums hal hsize hroom hplaced hnil hsome _⟩
  obtain ⟨a, ha⟩ := Option.ne_none_iff_exists'.mp (hsome p hp)
  obtain ⟨h₀, hs, hcap⟩ := hplaced p hp a ha
  have hle := le_max_left st.capacity 0
  generalize max st.capacity 0 = top' at hroom hle
  rw [top, ha, Option.getD_some, Fits]
  omega

end Sums

/-! ## The sums of a pass -/

section Pass

variable {s : Solver} {prior rest : List ℕ} {idx : ℕ} {L : Layout} {sw : Sweep}
  (hi : IntervalsOk s.st) (hst : RuleOk s.st) (ho : OrderOk s) (hroom : Room s.st s.sizes)
include hi hst ho hroom

theorem Tracks.fits_of_mem_decisionSums (hp : s.permutation = prior ++ idx :: rest)
    (hsafe : Safe s.st s.sizes s.eligible prior L) (h : Tracks s prior L sw) :
    ∀ v ∈ decisionSums s prior.length idx sw, Fits v := by
  have hidx := hroom idx (ho.mem_iff.mp (by simp [hp]))
  have hsize := ho.nonneg idx
  unfold decisionSums
  split_ifs with hnil
  · split
    · exact fun v hv => nomatch hv
    · rename_i m hscan
      have hle := le_of_scanIntervals hscan
      refine fits_of_mem_stackSums hst.alignment_pos hsize hidx ((hle m).mp le_rfl).1 ?_
      refine (hle _).mpr ⟨le_max_right _ _, fun t _ => (h.maxTop t _).mpr ⟨le_max_right _ _, ?_⟩⟩
      intro p _ hsome _
      obtain ⟨a, ha⟩ := Option.ne_none_iff_exists'.mp hsome
      rw [top, ha, Option.getD_some]
      exact le_max_of_le_left (hsafe.bounds p a ha).2.2
  · refine fits_of_mem_placeSums hst.alignment_pos hsize hidx fun p hpc a ha => ?_
    rw [h.address p (mem_candidates.mp ((mem_gatherCandidates hi ho hp).mp hpc)).1] at ha
    obtain ⟨h₀, -, hcap⟩ := hsafe.bounds p a ha
    exact ⟨h₀, ho.nonneg p, hcap⟩

theorem Tracks.fits_of_mem_passSums (hp : s.permutation = prior ++ rest)
    (hsafe : Safe s.st s.sizes s.eligible prior L) (h : Tracks s prior L sw) :
    ∀ v ∈ passSums s prior.length rest sw, Fits v := by
  induction rest generalizing prior L sw with
  | nil => exact fun v hv => nomatch hv
  | cons idx rest ih =>
    rw [passSums]
    split_ifs with hstop he
    · exact fun v hv => nomatch hv
    all_goals
      have hrest := ih (by simpa using hp) (hsafe.placeOne hst ho.nonneg idx)
        (h.step hi hst ho hp hsafe)
      rw [length_append, length_singleton] at hrest
    · exact forall_mem_append.mpr ⟨h.fits_of_mem_decisionSums hi hst ho hroom hp hsafe, hrest⟩
    · exact hrest

/-- Where there is room, every sum of a pass fits. -/
theorem fits_of_mem_passSums :
    ∀ v ∈ passSums s 0 s.permutation (initIntervals s), Fits v :=
  (Tracks.init hi).fits_of_mem_passSums hi hst ho hroom (nil_append _).symm Safe.empty

theorem overflowed_recomputeAll : (recomputeAll s).overflowed = s.overflowed := by
  have hany : ((passSums s 0 s.permutation (initIntervals s)).any
      fun v => !decide (Fits v)) = false := by
    simpa using fits_of_mem_passSums hi hst ho hroom
  exact (congrArg (s.overflowed || ·) hany).trans (Bool.or_false _)

end Pass

end PermLayout

end TorchSpyre
