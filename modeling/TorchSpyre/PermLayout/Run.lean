import Mathlib
import TorchSpyre.PermLayout.Construct
import TorchSpyre.PermLayout.Overflow

/-!
# Runs of the packer

What a call means is said on a `Config` : the order, the sizes and the flags, and nothing
else. The packer refines it : after any calls its addresses, quality and count are those of
a layout built from scratch for the configuration the calls lead to, although most calls
recompute nothing, and every call returns the change of quality it made.

Since every layout built from scratch is safe, so is every state the packer reaches.

The sums of the packer overflow for sizes near `2 ^ 63`, so all this is said of buffers and calls
that leave room (`Roomy`).
-/

open List Function

namespace TorchSpyre

open Checked

namespace PermLayout

/-- What a layout depends on. -/
@[ext] structure Config where
  permutation : List ℕ
  sizes : ℕ → ℤ
  eligible : ℕ → Bool

/-- What a call does to the configuration; a call with a bad argument does nothing. -/
def Config.apply (g : Config) : Call → Config
  | .swap i =>
    if 0 ≤ i ∧ i + 1 < g.permutation.length then
      { g with
        permutation := (g.permutation.set i.toNat (g.permutation.getD (i.toNat + 1) 0)).set
          (i.toNat + 1) (g.permutation.getD i.toNat 0) }
    else g
  | .rotate i j =>
    if (0 ≤ i ∧ i < g.permutation.length) ∧ 0 ≤ j ∧ j < g.permutation.length then
      { g with
        permutation := (g.permutation.eraseIdx i.toNat).insertIdx j.toNat
          (g.permutation.getD i.toNat 0) }
    else g
  | .resize idx newSize =>
    if (0 ≤ idx ∧ idx < g.permutation.length) ∧ 0 ≤ newSize then
      { g with sizes := Function.update g.sizes idx.toNat newSize }
    else g
  | .setEligible idx flag =>
    if 0 ≤ idx ∧ idx < g.permutation.length then
      { g with eligible := Function.update g.eligible idx.toNat flag }
    else g

/-- The configuration of a state. -/
def Solver.config (s : Solver) : Config :=
  ⟨s.permutation, s.sizes, s.eligible⟩

/-- The layout built from scratch for a configuration. -/
def Config.layout (st : StaticData) (g : Config) : Layout :=
  build st g.sizes g.eligible g.permutation

/-! ## Rearranging the permutation -/

variable {l : List ℕ} {s : Solver} {i j k : ℕ}

theorem swap_split (hk : k + 1 < l.length) :
    ∃ pre post, l = pre ++ l.getD k 0 :: l.getD (k + 1) 0 :: post ∧
      (l.set k (l.getD (k + 1) 0)).set (k + 1) (l.getD k 0) =
        pre ++ l.getD (k + 1) 0 :: l.getD k 0 :: post ∧ pre.length = k := by
  have hsplit : l = l.take k ++ l[k] :: l[k + 1] :: l.drop (k + 2) := by
    rw [← drop_eq_getElem_cons, ← drop_eq_getElem_cons, take_append_drop]
  rw [getD_eq_getElem _ _ hk, getD_eq_getElem _ _ (Nat.lt_of_succ_lt hk)]
  have hlen : (l.take k).length = k := by simp; omega
  refine ⟨l.take k, l.drop (k + 2), hsplit, ?_, hlen⟩
  generalize l[k] = x at *
  generalize l[k + 1] = y at *
  generalize l.take k = pre at *
  generalize l.drop (k + 2) = post at *
  subst hsplit
  subst hlen
  simp

theorem swap_getD (hk : k + 1 < l.length) (a b j : ℕ) :
    ((l.set k a).set (k + 1) b).getD j 0 =
      if j = k + 1 then b else if j = k then a else l.getD j 0 := by
  split_ifs with h₁ h₂
  · simp [h₁, hk]
  · subst h₂
    rw [List.getD, getElem?_set_ne (by omega), getElem?_set_self (by omega), Option.getD_some]
  · rw [List.getD, getElem?_set_ne (Ne.symm h₁), getElem?_set_ne (Ne.symm h₂), List.getD]

theorem rotateRange_split {a b c : ℕ} (hab : a ≤ b) (hbc : b ≤ c) (hc : c ≤ l.length) :
    ∃ P M N Q, l = P ++ (M ++ (N ++ Q)) ∧ rotateRange l a b c = P ++ (N ++ (M ++ Q)) ∧
      P.length = a ∧ M.length = b - a ∧ N.length = c - b := by
  refine ⟨l.take a, (l.take b).drop a, (l.take c).drop b, l.drop c, ?_, ?_, ?_, ?_, ?_⟩
  · have h₁ : l.take a ++ (l.take b).drop a = l.take b := by
      conv_rhs => rw [← take_append_drop a (l.take b), take_take, min_eq_left hab]
    have h₂ : l.take b ++ (l.take c).drop b = l.take c := by
      conv_rhs => rw [← take_append_drop b (l.take c), take_take, min_eq_left hbc]
    rw [← append_assoc, h₁, ← append_assoc, h₂, take_append_drop]
  · simp [rotateRange]
  · simp
    omega
  · simp
    omega
  · simp
    omega

/-- Moving an entry takes it out of one place and puts it in at another. -/
theorem moveEntry_split (hi : i < l.length) (hj : j < l.length) :
    ∃ P M Q,
      l = P ++ l.getD i 0 :: (M ++ Q) ∧ moveEntry l i j = P ++ (M ++ l.getD i 0 :: Q) ∧
          P.length = i ∧ P.length + M.length = j ∨
        l = P ++ (M ++ l.getD i 0 :: Q) ∧ moveEntry l i j = P ++ l.getD i 0 :: (M ++ Q) ∧
          P.length = j ∧ P.length + M.length = i := by
  unfold moveEntry
  by_cases hlt : i < j
  · rw [if_pos hlt]
    obtain ⟨P, M, N, Q, hl, hr, hP, hM, hN⟩ :=
      rotateRange_split (l := l) (show i ≤ i + 1 by omega) (show i + 1 ≤ j + 1 by omega) hj
    obtain ⟨x, rfl⟩ := length_eq_one_iff.1 (show M.length = 1 by omega)
    have hx : l.getD i 0 = x := by simp [hl, ← hP]
    rw [hx]
    exact ⟨P, N, Q, .inl ⟨by simpa using hl, by simpa using hr, hP, by omega⟩⟩
  · rw [if_neg hlt]
    obtain ⟨P, M, N, Q, hl, hr, hP, hM, hN⟩ :=
      rotateRange_split (l := l) (show j ≤ i by omega) (show i ≤ i + 1 by omega) hi
    obtain ⟨x, rfl⟩ := length_eq_one_iff.1 (show N.length = 1 by omega)
    have hx : l.getD i 0 = x := by
      have hi' : i = (P ++ M).length := by
        rw [length_append]
        omega
      rw [hl, hi', ← append_assoc]
      simp
    rw [hx]
    exact ⟨P, M, Q, .inr ⟨by simpa using hl, by simpa using hr, hP, by omega⟩⟩

theorem eraseIdx_append_cons (A Q : List ℕ) (x : ℕ) :
    (A ++ x :: Q).eraseIdx A.length = A ++ Q := by
  simp [eraseIdx_eq_take_drop_succ]

theorem insertIdx_append (A Q : List ℕ) (x : ℕ) :
    (A ++ Q).insertIdx A.length x = A ++ x :: Q := by
  induction A with
  | nil => simp
  | cons a A ih => simpa using ih

theorem moveEntry_eq (hi : i < l.length) (hj : j < l.length) :
    moveEntry l i j = (l.eraseIdx i).insertIdx j (l.getD i 0) := by
  obtain ⟨P, M, Q, ⟨hl, hm, rfl, rfl⟩ | ⟨hl, hm, rfl, hM⟩⟩ := moveEntry_split hi hj
  · rw [hm]
    generalize l.getD P.length 0 = x at *
    rw [hl, eraseIdx_append_cons, ← append_assoc P M Q, ← length_append,
      insertIdx_append, append_assoc]
  · rw [hm]
    generalize l.getD i 0 = x at *
    rw [hl, ← hM, ← append_assoc P M (x :: Q), ← length_append, eraseIdx_append_cons,
      append_assoc, insertIdx_append]

theorem moveEntry_perm (hi : i < l.length) (hj : j < l.length) :
    (moveEntry l i j).Perm l := by
  obtain ⟨P, M, Q, ⟨hl, hm, -, -⟩ | ⟨hl, hm, -, -⟩⟩ := moveEntry_split hi hj
  · rw [hm]
    exact (perm_middle.append_left P).trans (.of_eq hl.symm)
  · rw [hm]
    exact (perm_middle.symm.append_left P).trans (.of_eq hl.symm)

theorem getD_move {P M Q : List ℕ} {x : ℕ} (hk : k < P.length ∨ P.length + M.length < k) :
    (P ++ (M ++ x :: Q)).getD k 0 = (P ++ x :: (M ++ Q)).getD k 0 := by
  rcases hk with hk | hk
  · simp [getElem?_append_left hk]
  · rw [← append_assoc, ← cons_append, ← append_assoc, append_cons, List.getD,
      List.getD, getElem?_append_right (by simp; omega),
      getElem?_append_right (by simp; omega)]
    simp

theorem moveEntry_self (hi : i < l.length) : moveEntry l i i = l := by
  obtain ⟨P, M, Q, ⟨hl, hm, hP, hM⟩ | ⟨hl, hm, hP, hM⟩⟩ := moveEntry_split hi hi
  all_goals
    obtain rfl := length_eq_zero_iff.1 (show M.length = 0 by omega)
    exact hm.trans hl.symm

/-- Entries outside the range stay where they are. -/
theorem moveEntry_getD (hi : i < l.length) (hj : j < l.length) (hk : k < min i j ∨ max i j < k) :
    (moveEntry l i j).getD k 0 = l.getD k 0 := by
  obtain ⟨P, M, Q, ⟨hl, hm, hP, hM⟩ | ⟨hl, hm, hP, hM⟩⟩ := moveEntry_split hi hj
  · rw [hm, getD_move (by omega), ← hl]
  · rw [hm, ← getD_move (by omega), ← hl]

theorem moveEntry_filter (hi : i < l.length) (hj : j < l.length) {e : ℕ → Bool}
    (he : ¬e (l.getD i 0) = true) :
    (moveEntry l i j).filter e = l.filter e := by
  obtain ⟨P, M, Q, ⟨hl, hm, -, -⟩ | ⟨hl, hm, -, -⟩⟩ := moveEntry_split hi hj
  all_goals
    rw [hm]
    conv_rhs => rw [hl]
    simp only [filter_append, filter_cons_of_neg he]

/-! ## One call -/

section Call

variable {s s₁ : Solver}

theorem Valid.recompute (h : Valid s) (hst : s₁.st = s.st) (ho : OrderOk s₁) :
    Valid (recomputeAll s₁) := by
  have hi : IntervalsOk s₁.st := hst ▸ h.intervals
  have hr : RuleOk s₁.st := hst ▸ h.rule
  exact ⟨hi, hr, ⟨ho.perm, ho.position, ho.nonneg⟩, LayoutOk.recomputeAll hi hr ho⟩

theorem Valid.overflowed_recompute (h : Valid s) (hst : s₁.st = s.st) (ho : OrderOk s₁)
    (hroom : Room (recomputeAll s₁).st (recomputeAll s₁).sizes) :
    (recomputeAll s₁).overflowed = s₁.overflowed :=
  overflowed_recomputeAll (hst ▸ h.intervals) (hst ▸ h.rule) ho hroom

/-- A state that differs in its configuration only needs no recomputation if the layout
from scratch is the same. -/
theorem Valid.keep (h : Valid s) (g : Config) (position : ℕ → ℕ)
    (ho : OrderOk { s with
      permutation := g.permutation, position := position, sizes := g.sizes,
      eligible := g.eligible })
    (hl : g.layout s.st = s.config.layout s.st) :
    Valid { s with
      permutation := g.permutation, position := position, sizes := g.sizes,
      eligible := g.eligible } := by
  refine ⟨h.intervals, h.rule, ho, fun i hi => ?_, ?_, ?_⟩
  · exact (h.layout.address i hi).trans (congrFun (congrArg Layout.address hl.symm) i)
  · exact h.layout.quality.trans (congrArg Layout.quality hl.symm)
  · exact h.layout.allocated.trans (congrArg Layout.allocated hl.symm)

theorem OrderOk.length (h : OrderOk s) : s.permutation.length = s.st.n := by
  simpa using h.perm.length_eq

/-- What a call did : it kept the invariant, it returned the change of quality, and it
changed the configuration as it should. -/
structure CallOk (s : Solver) (c : Call) (q : ℚ) (s' : Solver) : Prop where
  valid : Valid s'
  st : s'.st = s.st
  quality : q = s'.totalQuality - s.totalQuality
  config : s'.config = s.config.apply c
  overflowed : Room s'.st s'.sizes → s'.overflowed = s.overflowed

theorem OrderOk.swap (h : OrderOk s) {k : ℕ} (hk : k + 1 < s.permutation.length) :
    OrderOk { s with
      permutation := (s.permutation.set k (s.permutation.getD (k + 1) 0)).set (k + 1)
        (s.permutation.getD k 0)
      position := Function.update (Function.update s.position (s.permutation.getD k 0) (k + 1))
        (s.permutation.getD (k + 1) 0) k } := by
  have hne : ∀ i j, i < s.permutation.length → j < s.permutation.length → i ≠ j →
      s.permutation.getD i 0 ≠ s.permutation.getD j 0 := fun i j hi hj hij heq =>
    hij (getD_inj h.nodup hi hj heq)
  refine ⟨?_, fun j hj => ?_, h.nonneg⟩
  · obtain ⟨pre, post, hl, hs, -⟩ := swap_split hk
    simp only [hs]
    exact ((List.Perm.swap _ _ post).append_left pre).trans ((List.Perm.of_eq hl.symm).trans h.perm)
  · rw [length_set, length_set] at hj
    simp only [swap_getD hk]
    split_ifs with hj₁ hj₂
    · rw [update_of_ne (hne _ _ (by omega) (by omega) (by omega)), update_self, hj₁]
    · rw [update_self, hj₂]
    · rw [update_of_ne (hne _ _ hj (by omega) hj₁),
        update_of_ne (hne _ _ hj (by omega) hj₂), h.position j hj]

/-- Swapping two neighbours leaves the layout alone if one of them is transparent or they
are never live together. -/
theorem layout_swap (h : OrderOk s) {k : ℕ} (hk : k + 1 < s.permutation.length)
    (hxy : ¬(s.eligible (s.permutation.getD k 0) = true ∧
        s.eligible (s.permutation.getD (k + 1) 0) = true) ∨
      ¬overlaps s.st (s.permutation.getD k 0) (s.permutation.getD (k + 1) 0) = true) :
    build s.st s.sizes s.eligible
        ((s.permutation.set k (s.permutation.getD (k + 1) 0)).set (k + 1)
          (s.permutation.getD k 0)) =
      build s.st s.sizes s.eligible s.permutation := by
  have hne : s.permutation.getD k 0 ≠ s.permutation.getD (k + 1) 0 := fun heq => by
    have := getD_inj h.nodup (by omega) hk heq
    omega
  obtain ⟨pre, post, hl, hs, -⟩ := swap_split hk
  rw [hs]
  conv_rhs => rw [hl]
  generalize s.permutation.getD k 0 = x at *
  generalize s.permutation.getD (k + 1) 0 = y at *
  rcases hxy with hel | hov
  · rw [build_filter, build_filter (pre ++ x :: y :: post)]
    simp only [filter_append, filter_cons]
    split_ifs with hy hx
    · exact absurd ⟨hx, hy⟩ hel
    · rfl
    · rfl
    · rfl
  · rw [build, build, buildFrom_append, buildFrom_append]
    exact (buildFrom_swap h.nonneg hne hov _ _ _).symm

variable {c : Call} {s' : Solver} {q : ℚ} {i idx newSize : ℤ}

theorem swap_ok (h : Valid s) (hc : swap s i = .ok (q, s')) :
    CallOk s (.swap i) q s' := by
  have hlen := h.order.length
  unfold swap at hc
  split_ifs at hc with hrange
  have hk : i.toNat + 1 < s.permutation.length := by omega
  have hconfig : s.config.apply (.swap i) =
      ⟨(s.permutation.set i.toNat (s.permutation.getD (i.toNat + 1) 0)).set (i.toNat + 1)
        (s.permutation.getD i.toNat 0), s.sizes, s.eligible⟩ :=
    if_pos ⟨by omega, by simp only [Solver.config]; omega⟩
  simp only at hc
  split_ifs at hc with he hov
  all_goals obtain ⟨rfl, rfl⟩ := Prod.mk.inj (Except.ok.inj hc)
  · have hel : ¬(s.eligible (s.permutation.getD i.toNat 0) = true ∧
        s.eligible (s.permutation.getD (i.toNat + 1) 0) = true) := by
      rintro ⟨hx, hy⟩
      rw [hx, hy] at he
      exact absurd he (by decide)
    exact ⟨h.keep ⟨_, s.sizes, s.eligible⟩ _ (h.order.swap hk)
      (layout_swap h.order hk (.inl hel)), rfl, by simp, hconfig.symm, fun _ => rfl⟩
  · exact ⟨h.keep ⟨_, s.sizes, s.eligible⟩ _ (h.order.swap hk)
      (layout_swap h.order hk (.inr (by simpa using hov))), rfl, by simp, hconfig.symm,
      fun _ => rfl⟩
  · exact ⟨h.recompute rfl (h.order.swap hk), rfl, rfl, hconfig.symm,
      h.overflowed_recompute rfl (h.order.swap hk)⟩

theorem OrderOk.move (h : OrderOk s) {i j : ℕ} (hi : i < s.permutation.length)
    (hj : j < s.permutation.length) : OrderOk (moveInPermutation s i j) := by
  have hperm := moveEntry_perm hi hj
  have hnd := hperm.nodup_iff.2 h.nodup
  have hlen := hperm.length_eq
  refine ⟨hperm.trans h.perm, fun k hk => ?_, h.nonneg⟩
  simp only [moveInPermutation] at hk ⊢
  rw [renumber_apply hnd (fun p hp => ?_) _ hk]
  · split_ifs with hin
    · rfl
    · rw [mem_range'_1] at hin
      rw [moveEntry_getD hi hj (by omega)]
      exact h.position k (by omega)
  · rw [mem_range'_1] at hp
    omega

theorem rotate_ok (h : Valid s) {j : ℤ} (hc : rotate s i j = .ok (q, s')) :
    CallOk s (.rotate i j) q s' := by
  have hlen := h.order.length
  unfold rotate at hc
  by_cases hrange : i < 0 ∨ (s.st.n : ℤ) ≤ i ∨ j < 0 ∨ (s.st.n : ℤ) ≤ j
  · simp [hrange] at hc
  rw [if_neg hrange] at hc
  have hi : i.toNat < s.permutation.length := by omega
  have hj : j.toNat < s.permutation.length := by omega
  have hconfig : s.config.apply (.rotate i j) =
      ⟨moveEntry s.permutation i.toNat j.toNat, s.sizes, s.eligible⟩ := by
    rw [moveEntry_eq hi hj]
    exact if_pos ⟨⟨by omega, by simp only [Solver.config]; omega⟩, by omega,
      by simp only [Solver.config]; omega⟩
  split_ifs at hc with hij he
  all_goals obtain ⟨rfl, rfl⟩ := Prod.mk.inj (Except.ok.inj hc)
  · subst hij
    rw [moveEntry_self hi] at hconfig
    exact ⟨h, rfl, by simp, hconfig.symm, fun _ => rfl⟩
  · refine ⟨h.keep ⟨moveEntry s.permutation i.toNat j.toNat, s.sizes, s.eligible⟩ _
      (h.order.move hi hj) ?_, rfl, ?_, hconfig.symm, fun _ => rfl⟩
    · simp only [Config.layout, Solver.config]
      rw [build_filter, moveEntry_filter hi hj (by simpa using he), ← build_filter]
    · simp [moveInPermutation]
  · exact ⟨h.recompute rfl (h.order.move hi hj), rfl, rfl, hconfig.symm,
      h.overflowed_recompute rfl (h.order.move hi hj)⟩

theorem OrderOk.resize (h : OrderOk s) (k : ℕ) (hn : 0 ≤ newSize) :
    OrderOk { s with sizes := Function.update s.sizes k newSize } := by
  refine ⟨h.perm, h.position, fun i => ?_⟩
  by_cases hi : i = k
  · subst hi
    simpa using hn
  · simpa [hi] using h.nonneg i

theorem resize_ok (h : Valid s) (hc : resize s idx newSize = .ok (q, s')) :
    CallOk s (.resize idx newSize) q s' := by
  have hlen := h.order.length
  unfold resize at hc
  by_cases hrange : idx < 0 ∨ (s.st.n : ℤ) ≤ idx
  · simp [hrange] at hc
  by_cases hneg : newSize < 0
  · simp [hrange, hneg] at hc
  rw [if_neg hrange, if_neg hneg] at hc
  have hconfig : s.config.apply (.resize idx newSize) =
      ⟨s.permutation, Function.update s.sizes idx.toNat newSize, s.eligible⟩ :=
    if_pos ⟨⟨by omega, by simp only [Solver.config]; omega⟩, by omega⟩
  have ho := h.order.resize idx.toNat (not_lt.1 hneg)
  simp only at hc
  split_ifs at hc with hsame he
  all_goals obtain ⟨rfl, rfl⟩ := Prod.mk.inj (Except.ok.inj hc)
  · have hsizes : Function.update s.sizes idx.toNat newSize = s.sizes := by
      rw [← hsame, update_eq_self]
    rw [hsizes] at hconfig
    exact ⟨h, rfl, by simp, hconfig.symm, fun _ => rfl⟩
  · refine ⟨h.keep ⟨s.permutation, Function.update s.sizes idx.toNat newSize, s.eligible⟩
      s.position ho ?_, rfl, by simp, hconfig.symm, fun _ => rfl⟩
    refine buildFrom_congr (SameRule.refl _) ho.nonneg (fun i hi => ?_) (fun _ => Iff.rfl) _ _
    refine update_of_ne ?_ _ _
    rintro rfl
    exact absurd hi (by simpa using he)
  · exact ⟨h.recompute rfl ho, rfl, rfl, hconfig.symm, h.overflowed_recompute rfl ho⟩

theorem setEligible_ok (h : Valid s) {flag : Bool} (hc : setEligible s idx flag = .ok (q, s')) :
    CallOk s (.setEligible idx flag) q s' := by
  have hlen := h.order.length
  unfold setEligible at hc
  by_cases hrange : idx < 0 ∨ (s.st.n : ℤ) ≤ idx
  · simp [hrange] at hc
  rw [if_neg hrange] at hc
  have hconfig : s.config.apply (.setEligible idx flag) =
      ⟨s.permutation, s.sizes, Function.update s.eligible idx.toNat flag⟩ :=
    if_pos ⟨by omega, by simp only [Solver.config]; omega⟩
  simp only at hc
  split_ifs at hc with hsame
  all_goals obtain ⟨rfl, rfl⟩ := Prod.mk.inj (Except.ok.inj hc)
  · have hflags : Function.update s.eligible idx.toNat flag = s.eligible := by
      rw [← hsame, update_eq_self]
    rw [hflags] at hconfig
    exact ⟨h, rfl, by simp, hconfig.symm, fun _ => rfl⟩
  · have ho : OrderOk { s with eligible := Function.update s.eligible idx.toNat flag } :=
      ⟨h.order.perm, h.order.position, h.order.nonneg⟩
    exact ⟨h.recompute rfl ho, rfl, rfl, hconfig.symm, h.overflowed_recompute rfl ho⟩

/-- Every accepted call is correct. -/
theorem call_ok (h : Valid s) (hc : call s c = .ok (q, s')) :
    CallOk s c q s' := by
  cases c with
  | swap i => exact swap_ok h hc
  | rotate i j => exact rotate_ok h hc
  | resize idx newSize => exact resize_ok h hc
  | setEligible idx flag => exact setEligible_ok h hc

/-- A call that throws has a bad argument. -/
theorem apply_of_error (h : Valid s) {e : String} (hc : call s c = .error e) :
    s.config.apply c = s.config := by
  have hlen : s.config.permutation.length = s.st.n := h.order.length
  cases c with
  | swap i =>
    simp only [call, swap] at hc
    split_ifs at hc with hrange
    exact if_neg (by omega)
  | rotate i j =>
    simp only [call, rotate] at hc
    split_ifs at hc with hrange
    exact if_neg (by omega)
  | resize idx newSize =>
    simp only [call, resize] at hc
    split_ifs at hc with hrange hneg
    · exact if_neg (by omega)
    · exact if_neg (by omega)
  | setEligible idx flag =>
    simp only [call, setEligible] at hc
    split_ifs at hc with hrange
    exact if_neg (by omega)

end Call

/-! ## Runs -/

theorem step_ok (h : Valid s) (c : Call) :
    Valid (step s c) ∧ (step s c).st = s.st ∧ (step s c).config = s.config.apply c ∧
      (Room (step s c).st (step s c).sizes → (step s c).overflowed = s.overflowed) := by
  unfold step
  cases hc : call s c with
  | error e => exact ⟨h, rfl, (apply_of_error h hc).symm, fun _ => rfl⟩
  | ok r =>
    obtain ⟨q, s'⟩ := r
    have hok := call_ok h hc
    exact ⟨hok.valid, hok.st, hok.config, hok.overflowed⟩

theorem run_ok (h : Valid s) (cs : List Call) :
    Valid (run s cs) ∧ (run s cs).st = s.st ∧
      (run s cs).config = cs.foldl Config.apply s.config := by
  induction cs generalizing s with
  | nil => exact ⟨h, rfl, rfl⟩
  | cons c cs ih =>
    obtain ⟨hv, hst, hcfg, -⟩ := step_ok h c
    obtain ⟨hv', hst', hcfg'⟩ := ih hv
    exact ⟨hv', hst'.trans hst, by rw [foldl_cons, ← hcfg]; exact hcfg'⟩

/-- The sizes a call asks for. -/
def Call.newSizes : Call → List ℤ
  | .resize _ newSize => [newSize]
  | _ => []

/-- A call that asks for no size without room leaves room. -/
theorem Room.step (h : Valid s) (hroom : Room s.st s.sizes) {c : Call}
    (hc : ∀ z ∈ c.newSizes, max s.st.capacity 0 + s.st.alignment + z < 2 ^ 63) :
    Room (step s c).st (step s c).sizes := by
  obtain ⟨-, hst, hcfg, -⟩ := step_ok h c
  rw [hst, show (PermLayout.step s c).sizes = (s.config.apply c).sizes from
    congrArg Config.sizes hcfg]
  intro k hk
  cases c with
  | resize idx newSize =>
    simp only [Config.apply]
    split_ifs
    · by_cases hidx : k = idx.toNat
      · rw [hidx]
        simpa using hc newSize (mem_singleton_self _)
      · simpa [hidx, Solver.config] using hroom k hk
    · exact hroom k hk
  | swap i =>
    simp only [Config.apply]
    split_ifs <;> exact hroom k hk
  | rotate i j =>
    simp only [Config.apply]
    split_ifs <;> exact hroom k hk
  | setEligible idx flag =>
    simp only [Config.apply]
    split_ifs <;> exact hroom k hk

theorem run_room (h : Valid s) (hroom : Room s.st s.sizes) (cs : List Call)
    (hcs : ∀ z ∈ cs.flatMap Call.newSizes, max s.st.capacity 0 + s.st.alignment + z < 2 ^ 63) :
    Room (run s cs).st (run s cs).sizes ∧ (run s cs).overflowed = s.overflowed := by
  induction cs generalizing s with
  | nil => exact ⟨hroom, rfl⟩
  | cons c cs ih =>
    rw [flatMap_cons, forall_mem_append] at hcs
    obtain ⟨hv, hst, -, hflag⟩ := step_ok h c
    have hroom' := hroom.step h hcs.1
    obtain ⟨hr, hf⟩ := ih hv hroom' (by rw [hst]; exact hcs.2)
    exact ⟨hr, hf.trans (hflag hroom')⟩

section Results

variable {buffers : List LifetimeBoundBuffer} {order : SetOrder} {permutation : List ℤ}
  {capacity alignment : ℤ} {eligible : Option (List Bool)} {s : Solver}

/-- The configuration a construction starts from. -/
def initialConfig (buffers : List LifetimeBoundBuffer) (permutation : List ℤ)
    (eligible : Option (List Bool)) : Config :=
  ⟨permutation.map Int.toNat, field buffers (fun b => (b.size : ℤ)) 0,
    fun i => (initialFlags buffers eligible).getD i false⟩

/-- The layout built from scratch after the calls `cs`. -/
def layoutAfter (buffers : List LifetimeBoundBuffer) (order : SetOrder) (permutation : List ℤ)
    (capacity alignment : ℤ) (eligible : Option (List Bool)) (cs : List Call) : Layout :=
  (cs.foldl Config.apply (initialConfig buffers permutation eligible)).layout
    (staticData buffers order capacity alignment)

theorem run_construct (h : construct buffers order permutation capacity alignment eligible = .ok s)
    (cs : List Call) :
    Valid (run s cs) ∧ (run s cs).st = staticData buffers order capacity alignment ∧
      (run s cs).config = cs.foldl Config.apply (initialConfig buffers permutation eligible) := by
  obtain ⟨rfl, hv⟩ := construct_eq_ok h
  exact run_ok hv cs

/-- A capacity, an alignment and any size that a buffer has, at first or after a call, add up to
less than `2 ^ 63`. -/
def Roomy (buffers : List LifetimeBoundBuffer) (capacity alignment : ℤ) (cs : List Call) : Prop :=
  ∀ z ∈ buffers.map (fun b => (b.size : ℤ)) ++ cs.flatMap Call.newSizes,
    max capacity 0 + alignment + z < 2 ^ 63

instance (cs : List Call) : Decidable (Roomy buffers capacity alignment cs) :=
  inferInstanceAs (Decidable (∀ z ∈ _, _))

/-- Where there is room, no sum overflows. -/
theorem run_construct_room
    (h : construct buffers order permutation capacity alignment eligible = .ok s) {cs : List Call}
    (hroom : Roomy buffers capacity alignment cs) :
    Room (run s cs).st (run s cs).sizes ∧ (run s cs).overflowed = false := by
  obtain ⟨rfl, hv⟩ := construct_eq_ok h
  obtain ⟨hsizes, hcalls⟩ := forall_mem_append.mp hroom
  have hinit : Room (staticData buffers order capacity alignment)
      (field buffers (fun b => (b.size : ℤ)) 0) := by
    intro i hi
    rw [field_eq _ _ hi]
    exact hsizes _ (mem_map_of_mem (getElem_mem hi))
  obtain ⟨hr, hf⟩ := run_room hv hinit cs hcalls
  refine ⟨hr, hf.trans ?_⟩
  exact overflowed_recomputeAll hv.intervals hv.rule
    ⟨hv.order.perm, hv.order.position, hv.order.nonneg⟩ hinit

/-- Where there is room, no sum of the packer overflows. After any calls, its addresses, quality and
count are those of the layout built from scratch for the configuration the calls lead to, whatever
order the hash sets of partners are read in, and the next call returns the change of quality it
makes. -/
theorem run_eq_build (h : construct buffers order permutation capacity alignment eligible = .ok s)
    {cs : List Call} (hroom : Roomy buffers capacity alignment cs) (order' : SetOrder) :
    (run s cs).overflowed = false ∧
      addresses (run s cs) = (List.range buffers.length).map
        (layoutAfter buffers order' permutation capacity alignment eligible cs).address ∧
      (run s cs).totalQuality =
        (layoutAfter buffers order' permutation capacity alignment eligible cs).quality ∧
      (run s cs).totalAllocatedCount =
        (layoutAfter buffers order' permutation capacity alignment eligible cs).allocated ∧
      ∀ c q s', Roomy buffers capacity alignment (cs ++ [c]) → call (run s cs) c = .ok (q, s') →
        s'.overflowed = false ∧ q = s'.totalQuality - (run s cs).totalQuality := by
  obtain ⟨hv, hst, hcfg⟩ := run_construct h cs
  have hlayout : layoutOf (run s cs) =
      layoutAfter buffers order' permutation capacity alignment eligible cs := by
    rw [layoutAfter, ← hcfg]
    refine buildFrom_congr (hst ▸ sameRule_staticData order order' capacity alignment)
      hv.order.nonneg (fun _ _ => rfl) (fun _ => Iff.rfl) _ _
  have hn : (run s cs).st.n = buffers.length := by rw [hst, staticData]
  rw [← hlayout]
  refine ⟨(run_construct_room h hroom).2, ?_, hv.layout.quality, hv.layout.allocated,
    fun c q s' hroom' hc => ⟨?_, (call_ok hv hc).quality⟩⟩
  · rw [addresses, hn]
    exact map_congr_left fun i hi => hv.layout.address i (hn ▸ mem_range.1 hi)
  · have hflag := (run_construct_room h hroom').2
    rwa [run, foldl_concat, ← run, step, hc] at hflag

/-- A buffer that can hand its storage over at tick 1. -/
def handOverParent : LifetimeBoundBuffer where
  name := "p"
  size := 256
  uses := [0, 1]
  uses_ne := by decide
  uses_increasing := by decide

/-- The in-place child of `handOverParent`. -/
def handOverChild : LifetimeBoundBuffer where
  name := "c"
  size := 128
  uses := [1, 2]
  inPlaceParents := ["p"]
  uses_ne := by decide
  uses_increasing := by decide

/-- The hash set that lists its elements as they were last inserted. -/
def insertionOrder : SetOrder :=
  ⟨List.dedup, fun _ => .refl _⟩

example :
    ((construct [handOverParent, handOverChild] insertionOrder [1, 0] 256 128 none).map
      fun s => (addresses s, addresses (run s [.resize 1 384, .setEligible 0 false]))).toOption =
      some ([some 0, some 0], [none, none]) := by
  decide +kernel

theorem run_eq_build_pair :
    ∃ s, construct [handOverParent, handOverChild] insertionOrder [1, 0] 256 128 none = .ok s ∧
      Roomy [handOverParent, handOverChild] 256 128 [.swap 0, .resize 1 256] ∧
      (run s [.swap 0, .resize 1 256]).overflowed = false ∧
      addresses (run s [.swap 0, .resize 1 256]) = (List.range 2).map
        (layoutAfter [handOverParent, handOverChild] insertionOrder [1, 0] 256 128 none
          [.swap 0, .resize 1 256]).address := by
  obtain ⟨s, hs⟩ := exists_eq_ok (x := construct [handOverParent, handOverChild] insertionOrder
    [1, 0] 256 128 none) (by decide +kernel)
  have hroom : Roomy [handOverParent, handOverChild] 256 128 [.swap 0, .resize 1 256] := by decide
  obtain ⟨hflag, haddr, -⟩ := run_eq_build hs hroom insertionOrder
  exact ⟨s, hs, hroom, hflag, haddr⟩

/-- A buffer of some size, live from tick 6 to tick 8. -/
def liveTogether (name : String) (size : ℕ) : LifetimeBoundBuffer where
  name := name
  size := size
  uses := [6, 8]
  uses_ne := by decide
  uses_increasing := by decide

/-- The second buffer grows to the capacity, and its top is at `2 ^ 63`. Wrapped, that is below the
capacity. -/
theorem run_overflows :
    ((construct [liveTogether "a" 1, liveTogether "b" 1] insertionOrder [0, 1] (2 ^ 63 - 1) 1
        none).toOption.map fun s =>
      (s.overflowed, (run s [.resize 1 (2 ^ 63 - 1)]).overflowed)) = some (false, true) := by
  decide +kernel

/-- Where there is room, no sum overflows on the way : at every call no pass so far has formed a sum
that does not fit in 64 bits, nor would a pass over the sizes of that moment. -/
theorem run_sums_fit (h : construct buffers order permutation capacity alignment eligible = .ok s)
    {cs : List Call} (hroom : Roomy buffers capacity alignment cs) {done : List Call}
    (hdone : done <+: cs) :
    (run s done).overflowed = false ∧
      ∀ v ∈ passSums (run s done) 0 (run s done).permutation (initIntervals (run s done)),
        Words.Fits v := by
  obtain ⟨rest, rfl⟩ := hdone
  have hroom' : Roomy buffers capacity alignment done := by
    intro z hz
    refine hroom z ?_
    rw [flatMap_append, ← append_assoc]
    exact mem_append_left _ hz
  obtain ⟨hv, -⟩ := run_construct h done
  obtain ⟨hr, hflag⟩ := run_construct_room h hroom'
  exact ⟨hflag, fits_of_mem_passSums hv.intervals hv.rule hv.order hr⟩

theorem run_sums_fit_pair :
    ∃ s, construct [handOverParent, handOverChild] insertionOrder [1, 0] 256 128 none = .ok s ∧
      Roomy [handOverParent, handOverChild] 256 128 [.resize 1 384, .setEligible 0 false] ∧
      [Call.resize 1 384] <+: [.resize 1 384, .setEligible 0 false] ∧
      (run s [.resize 1 384]).overflowed = false := by
  obtain ⟨s, hs⟩ := exists_eq_ok (x := construct [handOverParent, handOverChild] insertionOrder
    [1, 0] 256 128 none) (by decide +kernel)
  have hroom : Roomy [handOverParent, handOverChild] 256 128
    [.resize 1 384, .setEligible 0 false] := by decide
  have hdone : [Call.resize 1 384] <+: [.resize 1 384, .setEligible 0 false] := ⟨_, rfl⟩
  exact ⟨s, hs, hroom, hdone, (run_sums_fit hs hroom hdone).1⟩

/-- Aligning a top of 2 up to `2 ^ 63 - 1` forms `2 ^ 63` first. -/
theorem alignUp_overflows :
    ((construct [liveTogether "a" 2, liveTogether "b" 1] insertionOrder [0, 1] (2 ^ 63 - 1)
      (2 ^ 63 - 1) none).toOption.map Solver.overflowed) = some true := by
  decide +kernel

theorem name_mem_of_mem_declaredParents {i j : ℕ} (hi : i < buffers.length)
    (hj : j < buffers.length) (h : j ∈ declaredParentsOf buffers i) :
    buffers[j].name ∈ buffers[i].inPlaceParents := by
  rw [declaredParentsOf, field_eq _ _ hi, mem_filterMap] at h
  obtain ⟨name, hname, hidx⟩ := h
  obtain ⟨hlt, heq, -⟩ := findIdx?_eq_some_iff_getElem.1 hidx
  have hnj : buffers[j].name = name := by simpa using heq
  rwa [hnj]

/-- Where there is room, no sum of the packer overflows. In every state it reaches, a placed buffer
is eligible, aligned and within the capacity, and two placed buffers live at the same time have
disjoint addresses unless they are a declared in-place pair at one address with the child no larger
than the parent. -/
theorem run_safe (h : construct buffers order permutation capacity alignment eligible = .ok s)
    {cs : List Call} (hroom : Roomy buffers capacity alignment cs) :
    (run s cs).overflowed = false ∧
    (∀ i < buffers.length, ∀ a, (run s cs).address i = some a →
      (run s cs).eligible i = true ∧ 0 ≤ a ∧ alignment ∣ a ∧
        a + (run s cs).sizes i ≤ capacity) ∧
    ∀ i j (hi : i < buffers.length) (hj : j < buffers.length) a b, i ≠ j →
      (run s cs).address i = some a → (run s cs).address j = some b →
      buffers[i].overlapsInTime buffers[j] = true →
      Disjoint (Set.Ico a (a + (run s cs).sizes i)) (Set.Ico b (b + (run s cs).sizes j)) ∨
        a = b ∧ (buffers[j].name ∈ buffers[i].inPlaceParents ∧
            (run s cs).sizes i ≤ (run s cs).sizes j ∨
          buffers[i].name ∈ buffers[j].inPlaceParents ∧
            (run s cs).sizes j ≤ (run s cs).sizes i) := by
  obtain ⟨hv, hst, -⟩ := run_construct h cs
  have hflag := (run_construct_room h hroom).2
  generalize run s cs = t at hv hst hflag ⊢
  have hn : t.st.n = buffers.length := by rw [hst, staticData]
  have hsafe : Safe t.st t.sizes t.eligible t.permutation (layoutOf t) :=
    Safe.build hv.rule hv.order.nonneg _
  have haddr : ∀ i < buffers.length, ∀ a, t.address i = some a → (layoutOf t).address i = some a :=
    fun i hi a ha => (hv.layout.address i (hn ▸ hi)).symm.trans ha
  refine ⟨hflag, ?_, ?_⟩
  · intro i hi a ha
    obtain ⟨h₀, hal, hcap⟩ := hsafe.bounds i a (haddr i hi a ha)
    rw [hst] at hal hcap
    exact ⟨hsafe.eligible i a (haddr i hi a ha), h₀, hal, hcap⟩
  · intro i j hi hj a b hij ha hb hov
    have hov' : overlaps t.st i j = true := by
      rw [hst]
      simpa [overlaps, staticData, field_eq _ _ hi, field_eq _ _ hj,
        LifetimeBoundBuffer.overlapsInTime] using hov
    have hparent : ∀ x y, y ∈ t.st.declaredParents x → y ∈ declaredParentsOf buffers x := by
      intro x y hy
      rwa [hst] at hy
    rw [Set.Ico_disjoint_Ico]
    obtain hd | hd | ⟨hab, hd⟩ := hsafe.apart i j a b hij (haddr i hi a ha) (haddr j hj b hb) hov'
    · exact .inl (by omega)
    · exact .inl (by omega)
    · refine .inr ⟨hab, ?_⟩
      rcases hd with ⟨hp, hs⟩ | ⟨hp, hs⟩
      · exact .inl ⟨name_mem_of_mem_declaredParents hi hj (hparent i j hp), hs⟩
      · exact .inr ⟨name_mem_of_mem_declaredParents hj hi (hparent j i hp), hs⟩

theorem run_safe_pair :
    ∃ s, construct [handOverParent, handOverChild] insertionOrder [1, 0] 256 128 none = .ok s ∧
      (run s [.swap 0]).overflowed = false ∧
      ∀ i < 2, ∀ a, (run s [.swap 0]).address i = some a →
        (run s [.swap 0]).eligible i = true ∧ 0 ≤ a ∧ (128 : ℤ) ∣ a ∧
          a + (run s [.swap 0]).sizes i ≤ 256 := by
  obtain ⟨s, hs⟩ := exists_eq_ok (x := construct [handOverParent, handOverChild] insertionOrder
    [1, 0] 256 128 none) (by decide +kernel)
  obtain ⟨hflag, hbounds, -⟩ := run_safe hs (show Roomy _ _ _ [.swap 0] by decide)
  exact ⟨s, hs, hflag, hbounds⟩

/-- Two buffers that are live together and have no room. Wrapped, the top of the second is below the
capacity. -/
theorem construct_overflows :
    ((construct [liveTogether "a" (2 ^ 62), liveTogether "b" (2 ^ 63 - 1)] insertionOrder [0, 1]
      (2 ^ 63 - 1) 1 none).toOption.map Solver.overflowed) = some true := by
  decide +kernel

end Results

end PermLayout

end TorchSpyre
