import Mathlib

/-!
# Digits along a ladder of divisors

Finitely many rungs of distinct positive heights, each of which divides the next. A number is
spread over the rungs by quotients and remainders : a rung takes what is left below the next
rung, in units of its own height, and the highest rung takes all that is above it. What the
rungs from one on take is the number up to a remainder below that rung (`sum_digit_above`), so
a multiple of the lowest height is spread exactly (`sum_digit`).
-/

open Finset

namespace Ladder

variable {ι : Type*} [DecidableEq ι]

/-- Rungs `I` with their heights. `next` is the height of the next rung, if there is one. -/
structure Rungs (I : Finset ι) (height : ι → ℤ) (next : ι → Option ℤ) : Prop where
  pos : ∀ d ∈ I, 0 < height d
  inj : ∀ d ∈ I, ∀ e ∈ I, height d = height e → d = e
  dvd : ∀ d ∈ I, ∀ s, next d = some s → height d ∣ s
  lt : ∀ d ∈ I, ∀ s, next d = some s → height d < s
  mem : ∀ d ∈ I, ∀ s, next d = some s → ∃ e ∈ I, height e = s
  least : ∀ d ∈ I, ∀ s, next d = some s → ∀ f ∈ I, height d < height f → s ≤ height f
  top : ∀ d ∈ I, next d = none → ∀ f ∈ I, height f ≤ height d

/-- What rung `d` takes of `x`. -/
def digit (height : ι → ℤ) (next : ι → Option ℤ) (x : ℤ) (d : ι) : ℤ :=
  match next d with
  | none => x / height d
  | some s => x % s / height d

variable {I : Finset ι} {height : ι → ℤ} {next : ι → Option ℤ}

/-- The rungs from `d` on are `d` and the rungs from the next one on. -/
theorem Rungs.above_eq_insert (h : Rungs I height next) {d e : ι} (hd : d ∈ I)
    (hnext : next d = some (height e)) :
    (I.filter fun f => height d ≤ height f) = insert d (I.filter fun f => height e ≤ height f) := by
  have hlt := h.lt d hd _ hnext
  ext f
  simp only [mem_insert, mem_filter]
  constructor
  · rintro ⟨hf, hle⟩
    rcases hle.eq_or_lt with heq | hlt'
    · exact Or.inl (h.inj d hd f hf heq).symm
    · exact Or.inr ⟨hf, h.least d hd _ hnext f hf hlt'⟩
  · rintro (rfl | ⟨hf, hle⟩)
    · exact ⟨hd, le_rfl⟩
    · exact ⟨hf, hlt.le.trans hle⟩

/-- What the rungs from `d` on take is `x` up to a remainder. -/
theorem Rungs.sum_digit_above (h : Rungs I height next) (x : ℤ) {d : ι} (hd : d ∈ I) :
    (∑ e ∈ I with height d ≤ height e, digit height next x e * height e) + x % height d = x := by
  -- The induction is on the number of rungs above `d`.
  induction hk : #{f ∈ I | height d < height f} using Nat.strong_induction_on generalizing d with
  | _ k ih =>
    cases hnext : next d with
    | none =>
      have honly : (I.filter fun f => height d ≤ height f) = {d} := by
        ext f
        simp only [mem_filter, mem_singleton]
        constructor
        · rintro ⟨hf, hle⟩
          exact (h.inj d hd f hf (le_antisymm hle (h.top d hd hnext f hf))).symm
        · rintro rfl
          exact ⟨hd, le_rfl⟩
      rw [honly, sum_singleton, digit, hnext]
      exact Int.ediv_mul_add_emod x (height d)
    | some s =>
      obtain ⟨e, he, rfl⟩ := h.mem d hd s hnext
      have hlt := h.lt d hd _ hnext
      have hfewer : #{f ∈ I | height e < height f} < k := by
        rw [← hk]
        refine card_lt_card ⟨fun f hf => ?_, fun hsub => ?_⟩
        · simp only [mem_filter] at hf ⊢
          exact ⟨hf.1, hlt.trans hf.2⟩
        · have := hsub (mem_filter.mpr ⟨he, hlt⟩)
          exact absurd (mem_filter.mp this).2 (lt_irrefl _)
      have hrest := ih _ hfewer he rfl
      have hnot : d ∉ I.filter fun f => height e ≤ height f := fun hmem =>
        absurd (mem_filter.mp hmem).2 (not_le.mpr hlt)
      have hlow : x % height e / height d * height d + x % height d = x % height e := by
        rw [← Int.emod_emod_of_dvd x (h.dvd d hd _ hnext)]
        exact Int.ediv_mul_add_emod _ _
      rw [h.above_eq_insert hd hnext, sum_insert hnot, digit, hnext]
      linarith

/-- A multiple of the lowest height is spread over the rungs exactly. -/
theorem Rungs.sum_digit (h : Rungs I height next) {x : ℤ} {d : ι} (hd : d ∈ I)
    (hmin : ∀ f ∈ I, height d ≤ height f) (hx : height d ∣ x) :
    ∑ e ∈ I, digit height next x e * height e = x := by
  have hsum := h.sum_digit_above x hd
  rwa [filter_true_of_mem hmin, Int.emod_eq_zero_of_dvd hx, add_zero] at hsum

end Ladder
