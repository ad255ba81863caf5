import Mathlib

/-!
# Cutting a timeline into intervals

Half-open lifetimes on a linear order, cut at all their endpoints. A lifetime covers the
interval numbers from the position of its start to the position of its end among the cut
points, so two lifetimes meet exactly when they cover a common interval
(`exists_mem_cover_iff`).

The number of lifetimes on each interval is found by a sweep : one up at every start, one
down at every end, and a running sum (`runningTotal_deltas`).
-/

open List

namespace Timeline

section Cut

variable {τ : Type} [LinearOrder τ]

/-- The cut points : sorted, each once. -/
def cutPoints (l : List τ) : List τ :=
  (l.insertionSort (· ≤ ·)).dedup

theorem mem_cutPoints {l : List τ} {v : τ} : v ∈ cutPoints l ↔ v ∈ l := by
  simp [cutPoints]

theorem pairwise_cutPoints (l : List τ) : (cutPoints l).Pairwise (· < ·) := by
  have hle : (cutPoints l).Pairwise (· ≤ ·) :=
    (List.pairwise_insertionSort (· ≤ ·) l).sublist (dedup_sublist _)
  exact (hle.and (nodup_dedup _)).imp fun h => lt_of_le_of_ne h.1 h.2

/-- The end of the initial segment of values below `v`. -/
def bisectLeft (pts : List τ) (v : τ) : ℕ :=
  (pts.takeWhile fun p => decide (p < v)).length

theorem bisectLeft_cons (p : τ) (pts : List τ) (v : τ) :
    bisectLeft (p :: pts) v = if p < v then bisectLeft pts v + 1 else 0 := by
  by_cases h : p < v
  · simp [bisectLeft, h]
  · simp [bisectLeft, h]

variable {pts : List τ} {a b : τ}

theorem bisectLeft_mono (pts : List τ) (h : a ≤ b) :
    bisectLeft pts a ≤ bisectLeft pts b := by
  induction pts with
  | nil => simp [bisectLeft]
  | cons p pts ih =>
    rw [bisectLeft_cons, bisectLeft_cons]
    by_cases hpa : p < a
    · rw [if_pos hpa, if_pos (hpa.trans_le h)]
      omega
    · rw [if_neg hpa]
      exact Nat.zero_le _

theorem bisectLeft_lt (hs : pts.Pairwise (· < ·)) (ha : a ∈ pts) (h : a < b) :
    bisectLeft pts a < bisectLeft pts b := by
  induction pts with
  | nil => simp at ha
  | cons p pts ih =>
    obtain ⟨hp, hs⟩ := pairwise_cons.1 hs
    rw [bisectLeft_cons, bisectLeft_cons]
    rcases mem_cons.1 ha with rfl | ha
    · rw [if_neg (lt_irrefl a), if_pos h]
      omega
    · rw [if_pos (hp a ha), if_pos ((hp a ha).trans h)]
      have := ih hs ha
      omega

theorem bisectLeft_lt_iff (hs : pts.Pairwise (· < ·)) (ha : a ∈ pts) :
    bisectLeft pts a < bisectLeft pts b ↔ a < b := by
  refine ⟨fun h => ?_, bisectLeft_lt hs ha⟩
  by_contra hba
  exact absurd (bisectLeft_mono pts (not_lt.1 hba)) (not_le.2 h)

theorem bisectLeft_lt_length (hs : pts.Pairwise (· < ·)) (ha : a ∈ pts) :
    bisectLeft pts a < pts.length := by
  induction pts with
  | nil => simp at ha
  | cons p pts ih =>
    obtain ⟨hp, hs⟩ := pairwise_cons.1 hs
    rw [bisectLeft_cons, length_cons]
    rcases mem_cons.1 ha with rfl | ha
    · rw [if_neg (lt_irrefl a)]
      omega
    · rw [if_pos (hp a ha)]
      have := ih hs ha
      omega

/-- The interval numbers `[lo, hi)`, in order. -/
def cover (r : ℕ × ℕ) : List ℕ :=
  List.range' r.1 (r.2 - r.1)

theorem mem_cover {r : ℕ × ℕ} {t : ℕ} : t ∈ cover r ↔ r.1 ≤ t ∧ t < r.2 := by
  rw [cover, mem_range'_1]
  omega

theorem nodup_cover (r : ℕ × ℕ) : (cover r).Nodup :=
  nodup_range'

/-- Two nonempty lifetimes `[a, b)` and `[c, d)` meet when they cover a common interval. -/
theorem exists_mem_cover_iff (hs : pts.Pairwise (· < ·)) {c d : τ} (ha : a ∈ pts) (hc : c ∈ pts)
    (hab : a < b) (hcd : c < d) :
    (∃ t, t ∈ cover (bisectLeft pts a, bisectLeft pts b) ∧
      t ∈ cover (bisectLeft pts c, bisectLeft pts d)) ↔ a < d ∧ c < b := by
  rw [← bisectLeft_lt_iff hs ha, ← bisectLeft_lt_iff hs hc]
  have h₁ := bisectLeft_lt hs ha hab
  have h₂ := bisectLeft_lt hs hc hcd
  simp only [mem_cover]
  constructor
  · rintro ⟨t, ⟨hat, htb⟩, hct, htd⟩
    exact ⟨by omega, by omega⟩
  · rintro ⟨had, hcb⟩
    exact ⟨max (bisectLeft pts a) (bisectLeft pts c), by omega, by omega⟩

end Cut

/-! ## The sweep -/

section Sweep

variable {ι : Type} (lo hi : ι → ℕ)

/-- One up where each item starts, one down where it ends. -/
def deltas (l : List ι) (d : ℕ → ℤ) : ℕ → ℤ :=
  l.foldl (fun d i =>
    let d := Function.update d (lo i) (d (lo i) + 1)
    Function.update d (hi i) (d (hi i) - 1)) d

/-- The sum of the deltas up to and including `t`. -/
def runningTotal (d : ℕ → ℤ) (t : ℕ) : ℤ :=
  ((List.range (t + 1)).map d).sum

theorem runningTotal_update (d : ℕ → ℤ) (k : ℕ) (c : ℤ) (t : ℕ) :
    runningTotal (Function.update d k (d k + c)) t =
      runningTotal d t + if k ≤ t then c else 0 := by
  induction t with
  | zero =>
    by_cases hk : k = 0
    · subst hk
      simp [runningTotal]
    · simp [runningTotal, hk, Function.update_of_ne (Ne.symm hk)]
  | succ t ih =>
    have hsucc : ∀ e : ℕ → ℤ, runningTotal e (t + 1) = runningTotal e t + e (t + 1) := by
      intro e
      simp [runningTotal, range_succ (n := t + 1)]
    rw [hsucc, hsucc, ih]
    by_cases hk : k = t + 1
    · subst hk
      simp
      ring
    · rw [Function.update_of_ne (Ne.symm hk)]
      have hiff : k ≤ t + 1 ↔ k ≤ t := by omega
      simp only [hiff]
      ring

theorem runningTotal_deltas_add (l : List ι) (h : ∀ i ∈ l, lo i ≤ hi i) (d : ℕ → ℤ) (t : ℕ) :
    runningTotal (deltas lo hi l d) t =
      runningTotal d t + l.countP fun i => decide (t ∈ cover (lo i, hi i)) := by
  induction l generalizing d with
  | nil => simp [deltas]
  | cons i l ih =>
    have hi' := h i (by simp)
    have hstep := ih (fun j hj => h j (by simp [hj]))
      (Function.update (Function.update d (lo i) (d (lo i) + 1)) (hi i)
        (Function.update d (lo i) (d (lo i) + 1) (hi i) - 1))
    rw [deltas, foldl_cons]
    refine hstep.trans ?_
    rw [sub_eq_add_neg, runningTotal_update, runningTotal_update, countP_cons]
    simp only [mem_cover, decide_eq_true_eq]
    push_cast
    split_ifs <;> omega

/-- The sweep counts the items that cover each interval. -/
theorem runningTotal_deltas (l : List ι) (h : ∀ i ∈ l, lo i ≤ hi i) (t : ℕ) :
    runningTotal (deltas lo hi l fun _ => 0) t =
      l.countP fun i => decide (t ∈ cover (lo i, hi i)) := by
  rw [runningTotal_deltas_add lo hi l h]
  simp [runningTotal]

end Sweep

end Timeline
