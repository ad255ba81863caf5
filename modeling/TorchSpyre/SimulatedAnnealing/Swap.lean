import Mathlib
import TorchSpyre.AdjacentSwaps
import TorchSpyre.Binary64
import TorchSpyre.PermLayout.Run

/-!
# Tidying the order after a rotation

`annealing_step_swap` in `scratchpad/simulated_annealing.py`. Neighbours of the allocation order
that are never live together can be swapped without moving a buffer. The loop swaps those whose
first ends higher in memory than the second, walks back after a swap and forward otherwise, in a
window around the entries a rotation moved.

Tops do not change along the loop, so each swap takes away one inversion of the tops, and between
two swaps the loop walks forward only : it stops (`exists_swapLoop`). What is behind the walk is
tidy (`Walk`), and a swap that reaches below the window starts the walk again from there.
-/

namespace TorchSpyre

open Checked

namespace PermLayout

/-! ## The loop -/

/-- The top of a buffer as the packer reports it : a double, infinite for an evicted buffer. -/
def topValue (s : Solver) (idx : ℕ) : WithTop ℚ :=
  (s.address idx).elim ⊤ fun a => ((Binary64.nearest ((a + s.sizes idx : ℤ) : ℚ) : ℚ) : WithTop ℚ)

/-- `top_or_inf`. -/
def topOrInf (s : Solver) (idx : ℕ) : Except String (WithTop ℚ) := do
  guardE (idx < s.st.n) "top_or_inf index out of range"
  return topValue s idx

/-- `overlaps`, with its bounds check. -/
def overlapsAt (s : Solver) (i j : ℕ) : Except String Bool := do
  guardE (i < s.st.n ∧ j < s.st.n) "overlaps index out of range"
  return overlaps s.st i j

/-- An entry of the view of the permutation. -/
def getitem (s : Solver) (i : ℕ) : Except String ℕ := do
  guardE (i < s.permutation.length) "permutation index out of range"
  return s.permutation.getD i 0

/-- Whether the loop swaps the entries at `i` and `i + 1`. -/
def swaps (s : Solver) (i : ℕ) : Except String Bool := do
  let pi ← getitem s i
  let pi1 ← getitem s (i + 1)
  let live ← overlapsAt s pi pi1
  if live then return false
  else
    let t ← topOrInf s pi
    let t1 ← topOrInf s pi1
    return decide (t > t1)

/-- One iteration of the loop : the packer and the bounds `i` and `j` after it. -/
def swapBody (s : Solver) (i j : ℕ) : Except String (Solver × ℕ × ℕ) := do
  if ← swaps s i then
    let r ← swap s i
    return (r.2, if 0 < i then i - 1 else 1,
      if i = j ∧ j < s.permutation.length - 2 then j + 1 else j)
  else return (s, i + 1, j)

/-- The loop, `none` if the fuel runs out. -/
def swapLoop : ℕ → Solver → ℕ → ℕ → Option (Except String Solver)
  | 0, _, _, _ => none
  | fuel + 1, s, i, j =>
    if i ≤ j then
      match swapBody s i j with
      | .error e => some (.error e)
      | .ok (s', i', j') => swapLoop fuel s' i' j'
    else some (.ok s)

/-- `annealing_step_swap`. -/
def annealingStepSwap (fuel : ℕ) (s : Solver) (i j : ℤ) : Option (Except String Solver) :=
  if i = j then
    some (.error "for a rotation i -> i, we should return None from the rotation method")
  else if ¬(0 ≤ i ∧ i < s.permutation.length) ∨ ¬(0 ≤ j ∧ j < s.permutation.length) then
    some (.error "AssertionError")
  else
    let lo := (min i j - 1).toNat
    let hi := (max i j).toNat
    swapLoop fuel s lo (if hi = s.permutation.length - 1 then s.permutation.length - 2 else hi)

/-- Two buffers that are never live together, the first with the higher top. -/
def OutOfOrder (s : Solver) (x y : ℕ) : Prop :=
  ¬overlaps s.st x y = true ∧ topValue s y < topValue s x

instance (s : Solver) (x y : ℕ) : Decidable (OutOfOrder s x y) :=
  inferInstanceAs (Decidable (_ ∧ _))

/-- The entries at `k` and `k + 1` are out of order. -/
def Untidy (s : Solver) (k : ℕ) : Prop :=
  AdjacentSwaps.Related (OutOfOrder s) s.permutation k

/-! ## One iteration -/

section Iteration

variable {s : Solver} {i j : ℕ}

theorem untidy_iff (hi : i + 1 < s.permutation.length) :
    Untidy s i ↔ OutOfOrder s (s.permutation.getD i 0) (s.permutation.getD (i + 1) 0) := by
  unfold Untidy AdjacentSwaps.Related
  rw [List.getElem?_eq_getElem hi, List.getElem?_eq_getElem (Nat.lt_of_succ_lt hi),
    List.getD_eq_getElem _ _ hi, List.getD_eq_getElem _ _ (Nat.lt_of_succ_lt hi)]
  simp

theorem topOrInf_eq {idx : ℕ} (h : idx < s.st.n) : topOrInf s idx = .ok (topValue s idx) := by
  rw [topOrInf, guardE, if_pos h]
  rfl

theorem overlapsAt_eq {x y : ℕ} (hx : x < s.st.n) (hy : y < s.st.n) :
    overlapsAt s x y = .ok (overlaps s.st x y) := by
  rw [overlapsAt, guardE, if_pos ⟨hx, hy⟩]
  rfl

theorem getitem_eq (hi : i < s.permutation.length) :
    getitem s i = .ok (s.permutation.getD i 0) := by
  rw [getitem, guardE, if_pos hi]
  rfl

/-- Inside the permutation no read fails. -/
theorem swaps_eq (ho : OrderOk s) (hi : i + 1 < s.permutation.length) [Decidable (Untidy s i)] :
    swaps s i = .ok (decide (Untidy s i)) := by
  have hx := ho.getD_lt (Nat.lt_of_succ_lt hi)
  have hy := ho.getD_lt hi
  have hdec : decide (Untidy s i) =
      decide (OutOfOrder s (s.permutation.getD i 0) (s.permutation.getD (i + 1) 0)) :=
    decide_eq_decide.mpr (untidy_iff hi)
  rw [hdec, swaps, getitem_eq (Nat.lt_of_succ_lt hi), getitem_eq hi]
  simp only [bind, Except.bind, overlapsAt_eq hx hy, topOrInf_eq hx, topOrInf_eq hy, pure,
    Except.pure, OutOfOrder]
  by_cases h : overlaps s.st (s.permutation.getD i 0) (s.permutation.getD (i + 1) 0) = true
  · simp only [h, if_true, not_true, false_and, decide_false]
  · simp only [h, if_false, not_false_eq_true, true_and, gt_iff_lt, Bool.false_eq_true]

/-- What the loop keeps of the packer : everything but the order. -/
structure SameLayout (s s' : Solver) : Prop where
  st : s'.st = s.st
  sizes : s'.sizes = s.sizes
  address : s'.address = s.address
  totalQuality : s'.totalQuality = s.totalQuality
  totalAllocatedCount : s'.totalAllocatedCount = s.totalAllocatedCount

theorem SameLayout.refl (s : Solver) : SameLayout s s :=
  ⟨rfl, rfl, rfl, rfl, rfl⟩

theorem SameLayout.trans {s₁ s₂ s₃ : Solver} (h : SameLayout s₁ s₂) (h' : SameLayout s₂ s₃) :
    SameLayout s₁ s₃ :=
  ⟨h'.st.trans h.st, h'.sizes.trans h.sizes, h'.address.trans h.address,
    h'.totalQuality.trans h.totalQuality, h'.totalAllocatedCount.trans h.totalAllocatedCount⟩

theorem SameLayout.topValue {s' : Solver} (h : SameLayout s s') : topValue s' = topValue s := by
  funext idx
  rw [PermLayout.topValue, PermLayout.topValue, h.address, h.sizes]

theorem SameLayout.outOfOrder {s' : Solver} (h : SameLayout s s') :
    OutOfOrder s' = OutOfOrder s := by
  funext x y
  rw [OutOfOrder, OutOfOrder, h.topValue, h.st]

/-- A swap of two entries that are out of order moves no buffer and takes away an inversion. It
touches the pair itself, which is in order after it, and the pairs on both sides. -/
structure Tidied (s : Solver) (i : ℕ) (s' : Solver) : Prop where
  valid : Valid s'
  same : SameLayout s s'
  length : s'.permutation.length = s.permutation.length
  inversions : AdjacentSwaps.inversions (topValue s) s'.permutation + 1 =
    AdjacentSwaps.inversions (topValue s) s.permutation
  self : ¬Untidy s' i
  far : ∀ k, k + 1 < i ∨ i + 1 < k → (Untidy s' k ↔ Untidy s k)

theorem exists_tidied (h : Valid s) (hi : i + 1 < s.permutation.length) (hu : Untidy s i) :
    ∃ q s', swap s i = .ok (q, s') ∧ Tidied s i s' := by
  obtain ⟨hov, htop⟩ := (untidy_iff hi).mp hu
  obtain ⟨pre, post, hl, hl', rfl⟩ := swap_split hi
  have hlen := h.order.length
  obtain ⟨q, s', hs, hsame, hperm⟩ : ∃ q s', swap s pre.length = .ok (q, s') ∧
      SameLayout s s' ∧ s'.permutation = pre ++ s.permutation.getD (pre.length + 1) 0 ::
        s.permutation.getD pre.length 0 :: post := by
    unfold swap
    rw [if_neg (by omega)]
    simp only [Int.toNat_natCast, hov, Bool.not_false, if_true]
    split
    · exact ⟨_, _, rfl, ⟨rfl, rfl, rfl, rfl, rfl⟩, hl'⟩
    · exact ⟨_, _, rfl, ⟨rfl, rfl, rfl, rfl, rfl⟩, hl'⟩
  refine ⟨q, s', hs, (swap_ok h hs).valid, hsame, ?_, ?_, ?_, fun k hk => ?_⟩
  · rw [hperm, ← hl', List.length_set, List.length_set]
  · rw [hperm, AdjacentSwaps.inversions_swap htop, ← hl]
  · rw [Untidy, hsame.outOfOrder, hperm, AdjacentSwaps.related_append_iff]
    exact fun hback => lt_asymm htop hback.2
  · rw [Untidy, Untidy, hsame.outOfOrder, hperm, AdjacentSwaps.related_swap_of_far hk, ← hl]

end Iteration

/-! ## The walk -/

/-- What holds on the walk from `s₀` at the bounds `i` and `j`, for a window `[lo, hi]` : the pairs
of the window behind the walk are tidy. If the pairs outside the window were tidy at the start,
so are all pairs behind the walk and after the window. -/
structure Walk (s₀ : Solver) (lo hi : ℕ) (s : Solver) (i j : ℕ) : Prop where
  valid : Valid s
  same : SameLayout s₀ s
  hi_le : hi ≤ j
  inside : j + 1 < s.permutation.length
  behind : ∀ k, lo ≤ k → k < i → ¬Untidy s k
  outside : (∀ k, k < lo ∨ hi < k → ¬Untidy s₀ k) → ∀ k, k < i ∨ j < k → ¬Untidy s k

section Walk

variable {s₀ s : Solver} {lo hi i j : ℕ}

theorem Walk.start (h : Valid s) (hhi : hi + 1 < s.permutation.length) : Walk s lo hi s lo hi :=
  ⟨h, .refl s, le_rfl, hhi, fun _ hlo hlt => absurd hlt (not_lt.mpr hlo), fun h => h⟩

theorem Walk.forward (h : Walk s₀ lo hi s i j) (hu : ¬Untidy s i) : Walk s₀ lo hi s (i + 1) j := by
  refine ⟨h.valid, h.same, h.hi_le, h.inside, fun k hlo hk => ?_, fun hout k hk => ?_⟩
  · rcases Nat.lt_succ_iff_lt_or_eq.mp hk with hk | rfl
    · exact h.behind k hlo hk
    · exact hu
  · by_cases hki : k = i
    · exact hki ▸ hu
    · exact h.outside hout k (by omega)

/-- After a swap the walk resumes one pair earlier. At the start of the permutation there is no
earlier pair, and the pair itself is tidy. -/
theorem Walk.back (h : Walk s₀ lo hi s i j) (hij : i ≤ j) {s' : Solver} (ht : Tidied s i s') :
    Walk s₀ lo hi s' (if 0 < i then i - 1 else 1)
      (if i = j ∧ j < s.permutation.length - 2 then j + 1 else j) := by
  have hin := h.inside
  have hbehind : ∀ k, k < (if 0 < i then i - 1 else 1) → k + 1 < i ∨ k = i := by
    intro k hk
    split_ifs at hk <;> omega
  refine ⟨ht.valid, h.same.trans ht.same, ?_, ?_, fun k hlo hk => ?_, fun hout k hk => ?_⟩
  · have := h.hi_le
    split_ifs <;> omega
  · rw [ht.length]
    split_ifs <;> omega
  · rcases hbehind k hk with hk | rfl
    · rw [ht.far k (.inl hk)]
      exact h.behind k hlo (by omega)
    · exact ht.self
  · rcases hk with hk | hk
    · rcases hbehind k hk with hk | rfl
      · rw [ht.far k (.inl hk)]
        exact h.outside hout k (.inl (by omega))
      · exact ht.self
    · by_cases hend : k + 1 < s'.permutation.length
      · rw [ht.length] at hend
        have hfar : i + 1 < k ∧ j < k := by
          split_ifs at hk <;> omega
        rw [ht.far k (.inr hfar.1)]
        exact h.outside hout k (.inr hfar.2)
      · rintro ⟨x, y, -, hy, -⟩
        exact hend (List.getElem?_eq_some_iff.mp hy).1

/-- Bounds the iterations that are left. -/
def walkMeasure (s₀ s : Solver) (i : ℕ) : ℕ :=
  AdjacentSwaps.inversions (topValue s₀) s.permutation * (s.permutation.length + 1) +
    (s.permutation.length - i)

/-- An iteration keeps to the walk and brings its end closer. -/
theorem Walk.body (h : Walk s₀ lo hi s i j) (hij : i ≤ j) :
    ∃ s' i' j', swapBody s i j = .ok (s', i', j') ∧ Walk s₀ lo hi s' i' j' ∧
      walkMeasure s₀ s' i' < walkMeasure s₀ s i := by
  classical
  have hin := h.inside
  have hi : i + 1 < s.permutation.length := by omega
  by_cases hu : Untidy s i
  · obtain ⟨q, s', hs, ht⟩ := exists_tidied h.valid hi hu
    refine ⟨s', _, _, ?_, h.back hij ht, ?_⟩
    · rw [swapBody, swaps_eq h.valid.order hi, hs]
      simp [hu, bind, Except.bind, pure, Except.pure]
    · have hinv := ht.inversions
      rw [h.same.topValue] at hinv
      rw [walkMeasure, walkMeasure, ht.length, ← hinv, Nat.add_mul, Nat.one_mul]
      omega
  · refine ⟨s, i + 1, j, ?_, h.forward hu, ?_⟩
    · rw [swapBody, swaps_eq h.valid.order hi]
      simp [hu, bind, Except.bind, pure, Except.pure]
    · rw [walkMeasure, walkMeasure]
      omega

/-- More fuel than the measure is enough, and more changes nothing. -/
theorem Walk.exists_swapLoop (h : Walk s₀ lo hi s i j) :
    ∃ s' i' j', (∀ fuel, walkMeasure s₀ s i < fuel → swapLoop fuel s i j = some (.ok s')) ∧
      Walk s₀ lo hi s' i' j' ∧ j' < i' := by
  induction hm : walkMeasure s₀ s i using Nat.strong_induction_on generalizing s i j with
  | _ m ih =>
    by_cases hij : i ≤ j
    · obtain ⟨s₁, i₁, j₁, hbody, hwalk, hlt⟩ := h.body hij
      obtain ⟨s', i', j', hloop, hend⟩ := ih _ (hm ▸ hlt) hwalk rfl
      refine ⟨s', i', j', fun fuel hfuel => ?_, hend⟩
      obtain ⟨fuel, rfl⟩ := Nat.exists_eq_succ_of_ne_zero (Nat.ne_zero_of_lt hfuel)
      rw [swapLoop, if_pos hij, hbody]
      exact hloop fuel (by omega)
    · refine ⟨s, i, j, fun fuel hfuel => ?_, h, not_le.mp hij⟩
      obtain ⟨fuel, rfl⟩ := Nat.exists_eq_succ_of_ne_zero (Nat.ne_zero_of_lt hfuel)
      rw [swapLoop, if_neg hij]

end Walk

/-! ## The whole loop -/

section Results

variable {buffers : List LifetimeBoundBuffer} {order : SetOrder} {permutation : List ℤ}
  {capacity alignment : ℤ} {eligible : Option (List Bool)} {s : Solver}

/-- From every state the packer reaches, the loop ends, with no read outside the permutation, no
buffer moved, and the window tidy; the whole order is tidy if only the window was not. -/
theorem annealingStepSwap_tidies
    (h : construct buffers order permutation capacity alignment eligible = .ok s)
    (cs : List Call) {i j : ℤ} (hi : 0 ≤ i ∧ i < buffers.length)
    (hj : 0 ≤ j ∧ j < buffers.length) (hij : i ≠ j) :
    ∃ s', (∃ bound, ∀ fuel, bound < fuel →
        annealingStepSwap fuel (run s cs) i j = some (.ok s')) ∧
      addresses s' = addresses (run s cs) ∧ s'.totalQuality = (run s cs).totalQuality ∧
      s'.totalAllocatedCount = (run s cs).totalAllocatedCount ∧
      (∀ k : ℕ, max (min i j - 1) 0 ≤ k → (k : ℤ) ≤ min (max i j) (buffers.length - 2) →
        ¬Untidy s' k) ∧
      ((∀ k : ℕ, ¬(max (min i j - 1) 0 ≤ k ∧ (k : ℤ) ≤ min (max i j) (buffers.length - 2)) →
        ¬Untidy (run s cs) k) → ∀ k, ¬Untidy s' k) := by
  obtain ⟨hv, hst, -⟩ := run_construct h cs
  have hlen : (run s cs).permutation.length = buffers.length := by
    rw [hv.order.length, hst, staticData]
  obtain ⟨top, htop⟩ : ∃ top, top = if (max i j).toNat = buffers.length - 1 then
      buffers.length - 2 else (max i j).toNat := ⟨_, rfl⟩
  have hbound : top + 1 < (run s cs).permutation.length ∧
      (top : ℤ) = min (max i j) (buffers.length - 2) := by
    rw [hlen, htop]
    split_ifs <;> omega
  have hstart : Walk (run s cs) (min i j - 1).toNat top (run s cs) (min i j - 1).toNat top :=
    .start hv hbound.1
  obtain ⟨s', i', j', hloop, hwalk, hend⟩ := hstart.exists_swapLoop
  have hle := hwalk.hi_le
  refine ⟨s', ⟨walkMeasure (run s cs) (run s cs) (min i j - 1).toNat, fun fuel hfuel => ?_⟩, ?_,
    hwalk.same.totalQuality, hwalk.same.totalAllocatedCount, fun k hlo hk => ?_,
    fun hout k => ?_⟩
  · simp only [annealingStepSwap, if_neg hij, hlen, ← htop]
    rw [if_neg (by omega)]
    exact hloop fuel hfuel
  · rw [addresses, addresses, hwalk.same.st, hwalk.same.address]
  · exact hwalk.behind k (by omega) (by omega)
  · refine hwalk.outside (fun k hk => hout k ?_) k (by omega)
    omega

theorem annealingStepSwap_tidies_pair :
    ∃ s s', construct [handOverParent, handOverChild] insertionOrder [1, 0] 256 128 none = .ok s ∧
      addresses s' = addresses (run s [.swap 0]) ∧
      ∃ bound, ∀ fuel, bound < fuel →
        annealingStepSwap fuel (run s [.swap 0]) 1 0 = some (.ok s') := by
  obtain ⟨s, hs⟩ := exists_eq_ok (x := construct [handOverParent, handOverChild] insertionOrder
    [1, 0] 256 128 none) (by decide +kernel)
  obtain ⟨s', hfuel, haddr, -⟩ := annealingStepSwap_tidies hs [.swap 0] (i := 1) (j := 0)
    (by decide) (by decide) (by decide)
  exact ⟨s, s', hs, haddr, hfuel⟩

end Results

end PermLayout

end TorchSpyre
