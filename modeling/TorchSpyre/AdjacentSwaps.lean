import Mathlib

/-!
# Swaps of neighbours

A swap of two neighbours of a list touches the pair itself and the pairs on its two sides
(`related_swap_of_far`). Where the swap puts two entries in the order of their keys, it takes
away exactly one inversion (`inversions_swap`), so such swaps cannot go on forever.
-/

namespace AdjacentSwaps

variable {α K : Type} [LinearOrder K]

/-- The entries at `k` and `k + 1` are in the relation `R`. -/
def Related (R : α → α → Prop) (l : List α) (k : ℕ) : Prop :=
  ∃ x y, l[k]? = some x ∧ l[k + 1]? = some y ∧ R x y

section Related

variable {R : α → α → Prop} {pre post : List α} {x y : α} {k : ℕ}

theorem related_append_iff : Related R (pre ++ x :: y :: post) pre.length ↔ R x y := by
  simp [Related]

theorem related_swap_of_far (hk : k + 1 < pre.length ∨ pre.length + 1 < k) :
    Related R (pre ++ y :: x :: post) k ↔ Related R (pre ++ x :: y :: post) k := by
  have hget : ∀ m, m < pre.length ∨ pre.length + 1 < m →
      (pre ++ y :: x :: post)[m]? = (pre ++ x :: y :: post)[m]? := by
    rintro m (hm | hm)
    · rw [List.getElem?_append_left hm, List.getElem?_append_left hm]
    · obtain ⟨d, rfl⟩ : ∃ d, m = pre.length + (d + 2) := ⟨m - pre.length - 2, by omega⟩
      simp [List.getElem?_append_right]
  rw [Related, Related, hget k (by omega), hget (k + 1) (by omega)]

end Related

/-- The pairs of a list whose keys are out of order. -/
def inversions (key : α → K) : List α → ℕ
  | [] => 0
  | x :: l => l.countP (fun y => key y < key x) + inversions key l

theorem inversions_swap {key : α → K} {x y : α} (h : key y < key x) (pre post : List α) :
    inversions key (pre ++ y :: x :: post) + 1 = inversions key (pre ++ x :: y :: post) := by
  induction pre with
  | nil =>
    simp only [List.nil_append, inversions, List.countP_cons, h, decide_true, if_true,
      h.not_gt, decide_false, if_neg Bool.false_ne_true]
    omega
  | cons z pre ih =>
    have hcount : (pre ++ y :: x :: post).countP (fun w => key w < key z) =
        (pre ++ x :: y :: post).countP fun w => key w < key z :=
      ((List.Perm.swap x y post).append_left pre).countP_eq _
    simp only [List.cons_append, inversions]
    omega

end AdjacentSwaps
