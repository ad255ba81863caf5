import Mathlib
import TorchSpyre.PermLayout.Reinsert
import TorchSpyre.Annealer.Engine

/-!
# The reinsertion sweep

`annealing_step_rotate` in `scratchpad/simulated_annealing.py` and `_sweep_upper_bound` in
`scratchpad/sa_cooptimizer.py`. Both annealers take one buffer of the order and look at the quality
it gives at other positions. The address of a buffer does not decrease with its position
(`rotate_address_le`). The annealers conclude that a buffer that is evicted need not be tried from
two behind the last placed buffer on.

That is so unless the buffer alone keeps another one out, or would be placed in front of evicted
buffers between the bound and its own position (`sweepUpperBound_covers_iff`).
-/

open List

namespace TorchSpyre

open Checked

namespace PermLayout

/-- An order laid out with the sizes of a state. -/
abbrev Solver.lay (t : Solver) (l : List ℕ) : Layout :=
  build t.st t.sizes t.eligible l

/-! ## One rotation -/

/-- What `rotate` makes of a state. -/
structure Moved (t : Solver) (i j : ℕ) (t' : Solver) : Prop where
  valid : Valid t'
  st : t'.st = t.st
  sizes : t'.sizes = t.sizes
  eligible : t'.eligible = t.eligible
  permutation : t'.permutation = moveEntry t.permutation i j
  overflowed : Room t.st t.sizes → t'.overflowed = t.overflowed

section Moved

variable {t t' : Solver} {i j : ℕ}

theorem exists_rotate (hv : Valid t) (hi : i < t.permutation.length)
    (hj : j < t.permutation.length) : ∃ q t', rotate t i j = .ok (q, t') ∧ Moved t i j t' := by
  have hlen := hv.order.length
  obtain ⟨q, t', hrot⟩ : ∃ q t', rotate t i j = .ok (q, t') := by
    unfold rotate
    rw [if_neg (by omega)]
    dsimp only
    split_ifs
    · exact ⟨_, _, rfl⟩
    · exact ⟨_, _, rfl⟩
    · exact ⟨_, _, rfl⟩
  have hok := rotate_ok hv hrot
  have hconfig : t'.config = ⟨moveEntry t.permutation i j, t.sizes, t.eligible⟩ := by
    have hin : ((0 : ℤ) ≤ i ∧ (i : ℤ) < t.config.permutation.length) ∧
        (0 : ℤ) ≤ j ∧ (j : ℤ) < t.config.permutation.length := by
      simp only [Solver.config]
      omega
    rw [hok.config, moveEntry_eq hi hj]
    exact if_pos hin
  obtain ⟨hperm, hsizes, heligible⟩ := Config.mk.inj hconfig
  exact ⟨q, t', hrot, hok.valid, hok.st, hsizes, heligible, hperm,
    fun hroom => hok.overflowed (by rwa [hok.st, hsizes])⟩

theorem Moved.address (h : Moved t i j t') {y : ℕ} (hy : y < t.st.n) :
    t'.address y = (t.lay (moveEntry t.permutation i j)).address y := by
  rw [h.valid.layout.address y (h.st ▸ hy), layoutOf, h.st, h.sizes, h.eligible, h.permutation]

theorem Moved.quality (h : Moved t i j t') :
    t'.totalQuality = (t.lay (moveEntry t.permutation i j)).quality := by
  rw [h.valid.layout.quality, layoutOf, h.st, h.sizes, h.eligible, h.permutation]

/-- Moving an entry back. -/
theorem moveEntry_later {l : List ℕ} (hij : i < j) (hj : j < l.length) :
    ∃ P M Q, l = P ++ l.getD i 0 :: (M ++ Q) ∧ moveEntry l i j = P ++ (M ++ l.getD i 0 :: Q) ∧
      P.length = i ∧ P.length + M.length = j := by
  obtain ⟨P, M, Q, h | ⟨-, -, h₁, h₂⟩⟩ := moveEntry_split (hij.trans hj) hj
  · exact ⟨P, M, Q, h⟩
  · omega

/-- Moving an entry forward. -/
theorem moveEntry_earlier {l : List ℕ} (hji : j < i) (hi : i < l.length) :
    ∃ P M Q, l = P ++ (M ++ l.getD i 0 :: Q) ∧ moveEntry l i j = P ++ l.getD i 0 :: (M ++ Q) ∧
      P.length = j ∧ P.length + M.length = i := by
  obtain ⟨P, M, Q, ⟨-, -, h₁, h₂⟩ | h⟩ := moveEntry_split hi (hji.trans hi)
  · omega
  · exact ⟨P, M, Q, h⟩

end Moved

/-! ## The address of a buffer that is moved back -/

/-- The address of a buffer, infinite if it is evicted. -/
def addressOrInf (s : Solver) (x : ℕ) : WithTop ℤ :=
  (s.address x).elim ⊤ fun a => (a : WithTop ℤ)

section Results

variable {buffers : List LifetimeBoundBuffer} {order : SetOrder} {permutation : List ℤ}
  {capacity alignment : ℤ} {eligible : Option (List Bool)} {s : Solver}

/-- Where there is room, moving a buffer back in any state the packer reaches forms no sum that
overflows, and does not lower the address of the buffer. -/
theorem rotate_address_le
    (h : construct buffers order permutation capacity alignment eligible = .ok s)
    {cs : List Call} (hroom : Roomy buffers capacity alignment cs) {p q x : ℕ} (hpq : p < q)
    (hq : q < buffers.length) (hx : (run s cs).permutation[p]? = some x) :
    ∃ change s', rotate (run s cs) p q = .ok (change, s') ∧ s'.overflowed = false ∧
      addressOrInf (run s cs) x ≤ addressOrInf s' x := by
  obtain ⟨hv, hst, -⟩ := run_construct h cs
  obtain ⟨hroom, hflag⟩ := run_construct_room h hroom
  generalize run s cs = t at hv hst hx hroom hflag ⊢
  have hlen : t.permutation.length = buffers.length := by
    rw [hv.order.length, hst, staticData]
  obtain ⟨change, s', hrot, hmoved⟩ := exists_rotate hv (hlen ▸ hpq.trans hq) (hlen ▸ hq)
  refine ⟨change, s', hrot, (hmoved.overflowed hroom).trans hflag, ?_⟩
  obtain ⟨P, M, Q, hl, hl', -, -⟩ := moveEntry_later hpq (hlen ▸ hq)
  obtain rfl : t.permutation.getD p 0 = x := by rw [getD_eq_getElem?_getD, hx]; rfl
  have hxn := hv.order.getD_lt (hlen ▸ hpq.trans hq : p < t.permutation.length)
  generalize t.permutation.getD p 0 = x at hl hl' hxn
  have hnd : (P ++ x :: (M ++ Q)).Nodup := hl ▸ hv.order.nodup
  have hnd' : ((P ++ M) ++ x :: Q).Nodup := by
    rw [append_assoc]
    exact (perm_middle.append_left P).nodup_iff.mpr hnd
  have hold : t.address x = decideOne t.st t.sizes t.eligible P x (t.lay P) := by
    rw [hv.layout.address x hxn, layoutOf, hl, build_address_self hnd]
  have hnew : s'.address x = decideOne t.st t.sizes t.eligible (P ++ M) x (t.lay (P ++ M)) := by
    rw [hmoved.address hxn, hl', ← append_assoc, build_address_self hnd']
  rw [addressOrInf, addressOrInf]
  cases hs' : s'.address x with
  | none => exact le_top
  | some a =>
    rw [hnew] at hs'
    have hsame : ∀ p ∈ P, (t.lay P).address p = (t.lay (P ++ M)).address p := fun p hp =>
      (build_address_left (nodup_append.mp hnd').1 hp).symm
    obtain ⟨b, hb, hdec⟩ := decideOne_le_of_subset hv.rule hv.order.nonneg
      (Safe.build hv.rule hv.order.nonneg (P ++ M)) (subset_append_left P M) hsame hs'
    rw [hold, hdec]
    exact WithTop.coe_le_coe.mpr hb

theorem rotate_address_le_pair :
    ∃ s change s',
      construct [handOverParent, handOverChild] insertionOrder [1, 0] 256 128 none = .ok s ∧
      rotate (run s []) (0 : ℕ) (1 : ℕ) = .ok (change, s') ∧ s'.overflowed = false ∧
      addressOrInf (run s []) 1 ≤ addressOrInf s' 1 := by
  obtain ⟨s, hs⟩ := exists_eq_ok (x := construct [handOverParent, handOverChild] insertionOrder
    [1, 0] 256 128 none) (by decide +kernel)
  have hx : (run s []).permutation[0]? = some 1 := by
    have hconfig := (run_construct hs []).2.2
    rw [show (run s []).permutation = [1, 0] from congrArg Config.permutation hconfig]
    rfl
  obtain ⟨change, s', hrot, hflag, hle⟩ :=
    rotate_address_le hs (show Roomy _ _ _ [] by decide) (p := 0) (q := 1) (by decide)
      (by decide) hx
  exact ⟨s, change, s', hs, hrot, hflag, hle⟩

/-- The second buffer does not fit and is evicted. Behind the third its top is at `2 ^ 63`, and
wrapped that is below the capacity. -/
theorem rotate_overflows :
    ((construct [liveTogether "y" 1, liveTogether "x" (2 ^ 62), liveTogether "z" (2 ^ 62 - 1)]
        insertionOrder [0, 1, 2] (2 ^ 62) 1 none).toOption.map fun s =>
      (s.overflowed, addresses s, (rotate s 1 2).toOption.map fun r => r.2.overflowed)) =
      some (false, [some 0, none, none], some true) := by
  decide +kernel

end Results

/-! ## What the bound covers -/

/-- Which positions of the order hold a placed buffer. -/
def allocatedFlags (t : Solver) : List Bool :=
  t.permutation.map fun x => (t.address x).isSome

/-- Where the placement rule would put `y` now, after the buffers `prior`. -/
def wouldRest (t : Solver) (prior : List ℕ) (y : ℕ) : Option ℤ :=
  decideOne t.st t.sizes t.eligible prior y ⟨t.address, t.totalQuality, t.totalAllocatedCount⟩

/-- The buffer at position `i` alone keeps the one at position `m` out. -/
def KeptOut (t : Solver) (i m : ℕ) : Prop :=
  t.address (t.permutation.getD m 0) = none ∧
    wouldRest t ((t.permutation.take m).eraseIdx i) (t.permutation.getD m 0) ≠ none

instance (t : Solver) (i m : ℕ) : Decidable (KeptOut t i m) :=
  inferInstanceAs (Decidable (_ ∧ _))

/-- No position is left out, or the evicted buffer at `i` keeps no other out by itself and is not
placed at the first position that is left out. -/
def SweepCovers (t : Solver) (i : ℕ) : Prop :=
  let bound := Annealer.sweepUpperBound i (allocatedFlags t)
  t.permutation.length ≤ bound + 1 ∨
    (∀ m, i < m → m < t.permutation.length → ¬KeptOut t i m) ∧
      (bound < i → wouldRest t (t.permutation.take (bound + 1)) (t.permutation.getD i 0) = none)

/-- Moving the buffer at `i` to any position that is left out does not change the quality. -/
def QualityKept (t : Solver) (i : ℕ) : Prop :=
  ∀ j, Annealer.sweepUpperBound i (allocatedFlags t) < j → j < t.permutation.length →
    ∃ change t', rotate t i j = .ok (change, t') ∧ t'.totalQuality = t.totalQuality

/-- The last position the sweep tries. -/
abbrev Solver.sweepBound (t : Solver) (i : ℕ) : ℕ :=
  Annealer.sweepUpperBound i (allocatedFlags t)

theorem le_getLastD_filter {n k : ℕ} {p : ℕ → Bool} (hk : k < n) (hp : p k = true) :
    k ≤ ((List.range n).filter p).getLastD 0 := by
  have hmem : k ∈ (List.range n).filter p := mem_filter.mpr ⟨mem_range.mpr hk, hp⟩
  rw [getLastD_eq_getLast?, getLast?_eq_some_getLast (ne_nil_of_mem hmem), Option.getD_some]
  exact (pairwise_le_range.sublist filter_sublist).rel_getLast hmem

section Covers

variable {t : Solver} {i m : ℕ}

/-- Beyond the bound nothing is placed. -/
theorem address_eq_none_of_bound_lt (hi : i < t.permutation.length)
    (hev : t.address (t.permutation.getD i 0) = none)
    (hm : t.sweepBound i < m) (hlt : m < t.permutation.length) :
    t.address (t.permutation.getD m 0) = none := by
  have hflag : ∀ k < t.permutation.length, (allocatedFlags t).getD k false =
      (t.address (t.permutation.getD k 0)).isSome := by
    intro k hk
    simp [allocatedFlags, hk]
  have hlen : (allocatedFlags t).length = t.permutation.length := length_map _
  rw [Solver.sweepBound, Annealer.sweepUpperBound, hflag i hi, hev, hlen] at hm
  by_contra hne
  have hplaced : (allocatedFlags t).getD m false = true := by
    rw [hflag m hlt]
    exact Option.isSome_iff_ne_none.mpr hne
  have hle := le_getLastD_filter (p := fun k => (allocatedFlags t).getD k false) hlt hplaced
  simp only [Option.isSome_none, Bool.false_eq_true, if_false] at hm
  omega

variable {P Q R : List ℕ} {x : ℕ}

/-- The layout of a state, as a layout from scratch. -/
theorem address_eq_build (hv : Valid t) {y : ℕ} (hy : y ∈ t.permutation) :
    t.address y = (t.lay t.permutation).address y :=
  hv.layout.address y (hv.order.mem_iff.mp hy)

theorem wouldRest_eq (hv : Valid t) {prior : List ℕ} (hsub : prior ⊆ t.permutation) (y : ℕ) :
    wouldRest t prior y = decideOne t.st t.sizes t.eligible prior y (t.lay t.permutation) :=
  decideOne_congr hv.order.nonneg fun _ hp => address_eq_build hv (hsub hp)

/-- After a prefix of the order the rule decides as it did for the layout. -/
theorem wouldRest_of_append (hv : Valid t) (hl : t.permutation = P ++ R) (y : ℕ) :
    wouldRest t P y = decideOne t.st t.sizes t.eligible P y (t.lay P) := by
  have hnd : (P ++ R).Nodup := hl ▸ hv.order.nodup
  rw [wouldRest_eq hv (hl ▸ subset_append_left P R)]
  refine decideOne_congr hv.order.nonneg fun p hp => ?_
  rw [hl, build_address_left hnd hp]

theorem decideOne_of_evicted (hv : Valid t) (hl : t.permutation = P ++ x :: R)
    (hev : t.address x = none) : Evicted t.st t.sizes t.eligible P x := by
  rwa [address_eq_build hv (by simp [hl]), hl, build_address_self (hl ▸ hv.order.nodup)] at hev

theorem keptOut_iff (hv : Valid t) {R₁ R₂ : List ℕ} {y : ℕ}
    (hl : t.permutation = P ++ x :: (R₁ ++ y :: R₂)) :
    KeptOut t P.length (P.length + 1 + R₁.length) ↔
      (t.lay t.permutation).address y = none ∧
      decideOne t.st t.sizes t.eligible (P ++ R₁) y (t.lay t.permutation) ≠ none := by
  have hl' : t.permutation = (P ++ x :: R₁) ++ y :: R₂ := by rw [hl]; simp
  have hlen : P.length + 1 + R₁.length = (P ++ x :: R₁).length := by
    rw [length_append, length_cons]
    omega
  have hget : t.permutation.getD (P.length + 1 + R₁.length) 0 = y := by
    rw [hl', hlen, getD_eq_getElem?_getD, getElem?_append_right le_rfl]
    simp
  have htake : (t.permutation.take (P.length + 1 + R₁.length)).eraseIdx P.length = P ++ R₁ := by
    rw [hlen, hl', take_left, eraseIdx_append_cons]
  have hsub : P ++ R₁ ⊆ t.permutation := by
    intro z hz
    rw [hl]
    simp only [mem_append, mem_cons] at hz ⊢
    tauto
  rw [KeptOut, hget, htake, wouldRest_eq hv hsub, address_eq_build hv (by simp [hl'])]

/-- Behind its place, an evicted buffer that keeps no other out changes nothing. -/
theorem build_move_later (hv : Valid t) {M : List ℕ} (hl : t.permutation = P ++ x :: (M ++ Q))
    (hev : t.address x = none)
    (hkept : ∀ m, P.length < m → m < t.permutation.length → ¬KeptOut t P.length m) (y : ℕ) :
    (t.lay (P ++ (M ++ x :: Q))).address y = (t.lay t.permutation).address y := by
  have hnd : (P ++ x :: (M ++ Q)).Nodup := hl ▸ hv.order.nodup
  have hnd' : ((P ++ M) ++ x :: Q).Nodup := by
    rw [append_assoc]
    exact (perm_middle.append_left P).nodup_iff.mpr hnd
  have hdec := decideOne_of_evicted hv hl hev
  have hwithout : build t.st t.sizes t.eligible (P ++ (M ++ Q)) = t.lay (P ++ x :: (M ++ Q)) := by
    refine build_without_eq hv.order.nonneg hnd hdec fun R₁ y R₂ hR hnone => ?_
    by_contra hne
    have hl' : t.permutation = P ++ x :: (R₁ ++ y :: R₂) := by rw [hl, hR]
    refine hkept (P.length + 1 + R₁.length) (by omega) ?_ ((keptOut_iff hv hl').mpr ?_)
    · rw [hl']
      simp only [length_append, length_cons]
      omega
    · rw [hl]
      exact ⟨hnone, hne⟩
  have hlater := extends_later hv.rule hv.order.nonneg hnd hdec
  have hback := extends_without hv.order.nonneg hnd'
    (decideOne_evicted_later hv.rule hv.order.nonneg (nodup_append.mp hnd').1 hdec)
  rw [append_assoc, append_assoc, hwithout] at hback
  rw [hl]
  cases hy : (t.lay (P ++ (M ++ x :: Q))).address y with
  | some a => exact (hback y a hy).symm
  | none =>
    cases hy' : (t.lay (P ++ x :: (M ++ Q))).address y with
    | none => rfl
    | some a =>
      rw [hlater y a hy'] at hy
      cases hy

variable (hv : Valid t) (hi : i < t.permutation.length)
  (hev : t.address (t.permutation.getD i 0) = none)
include hv hi hev

/-- What is placed comes no later than the bound. -/
theorem mem_of_placed (hl : t.permutation = P ++ R) (hP : t.sweepBound i < P.length) {y : ℕ} {a : ℤ}
    (hy : (t.lay t.permutation).address y = some a) : y ∈ P := by
  have hmem := (Safe.build hv.rule hv.order.nonneg t.permutation).mem y a hy
  obtain ⟨k, hk, hget⟩ := getElem_of_mem hmem
  rw [← address_eq_build hv hmem] at hy
  have hkP : k < P.length := by
    by_contra hge
    have hnone := address_eq_none_of_bound_lt hi hev (hP.trans_le (not_lt.mp hge)) hk
    rw [getD_eq_getElem _ _ hk, hget, hy] at hnone
    cases hnone
  have happend : (P ++ R)[k]? = P[k]? := getElem?_append_left hkP
  have hgetP : P[k]? = some y := by
    rw [← happend, ← hl, getElem?_eq_getElem hk, hget]
  exact mem_of_getElem? hgetP

/-- In front of its place but beyond the bound, a buffer that is evicted there too changes
nothing. -/
theorem build_move_earlier {M : List ℕ}
    (hl : t.permutation = P ++ (M ++ t.permutation.getD i 0 :: Q)) (hP : t.sweepBound i < P.length)
    (hdec : Evicted t.st t.sizes t.eligible P (t.permutation.getD i 0)) (y : ℕ) :
    (t.lay (P ++ t.permutation.getD i 0 :: (M ++ Q))).address y =
      (t.lay t.permutation).address y := by
  have hnd : (P ++ t.permutation.getD i 0 :: (M ++ Q)).Nodup :=
    (perm_middle.append_left P).nodup_iff.mp (hl ▸ hv.order.nodup)
  have hlater := extends_later hv.rule hv.order.nonneg hnd hdec
  rw [← hl] at hlater
  cases hy : (t.lay t.permutation).address y with
  | some a =>
    have hyP := mem_of_placed hv hi hev hl hP hy
    rw [build_address_left hnd hyP, ← hy, hl, build_address_left (hl ▸ hv.order.nodup) hyP]
  | none =>
    cases hy' : (t.lay (P ++ t.permutation.getD i 0 :: (M ++ Q))).address y with
    | none => rfl
    | some a =>
      rw [hlater y a hy'] at hy
      cases hy

theorem SweepCovers.qualityKept (h : SweepCovers t i) : QualityKept t i := by
  intro j hbound hj
  obtain ⟨hkept, hfirst⟩ := h.resolve_left (by omega)
  obtain ⟨change, t', hrot, hmoved⟩ := exists_rotate hv hi hj
  refine ⟨change, t', hrot, ?_⟩
  rw [hmoved.quality, hv.layout.quality, layoutOf]
  refine quality_build_congr hv.order.nodup (moveEntry_perm hi hj) fun y _ => ?_
  rcases lt_trichotomy i j with hij | rfl | hji
  · obtain ⟨P, M, Q, hl, hl', rfl, -⟩ := moveEntry_later hij hj
    rw [hl']
    exact build_move_later hv hl hev hkept y
  · rw [moveEntry_self hi]
  · obtain ⟨P, M, Q, hl, hl', rfl, -⟩ := moveEntry_earlier hji hi
    rw [hl']
    refine build_move_earlier hv hi hev hl hbound ?_ y
    -- It is evicted at the first position left out, hence at the later ones.
    obtain ⟨P₁, P₂, rfl, hP₁⟩ : ∃ P₁ P₂, P = P₁ ++ P₂ ∧
        P₁.length = t.sweepBound i + 1 :=
      ⟨_, _, (take_append_drop _ P).symm, length_take_of_le hbound⟩
    have hsplit : t.permutation = P₁ ++ (P₂ ++ (M ++ t.permutation.getD i 0 :: Q)) := by
      rw [← append_assoc]
      exact hl
    have htake : t.permutation.take (t.sweepBound i + 1) = P₁ := by
      rw [hsplit, ← hP₁, take_left]
    have hnone := hfirst (hbound.trans hji)
    rw [htake, wouldRest_of_append hv hsplit] at hnone
    have hnd : (P₁ ++ P₂).Nodup :=
      (nodup_append.mp (hl ▸ hv.order.nodup : ((P₁ ++ P₂) ++ _).Nodup)).1
    exact decideOne_evicted_later hv.rule hv.order.nonneg hnd hnone

variable (hpos : ∀ y ∈ t.permutation, 0 < t.st.weight y * t.sizes y)
include hpos

/-- At the end of the order an evicted buffer keeps no other out, so there must be none. -/
theorem not_keptOut_of_quality
    (hquality : (t.lay (moveEntry t.permutation i (t.permutation.length - 1))).quality =
      (t.lay t.permutation).quality)
    (him : i < m) (hm : m < t.permutation.length) : ¬KeptOut t i m := by
  intro hkept
  have hj : t.permutation.length - 1 < t.permutation.length := by omega
  have hij : i < t.permutation.length - 1 := by omega
  obtain ⟨P, M, Q, hl, hl', rfl, hlen⟩ := moveEntry_later hij hj
  generalize t.permutation.getD P.length 0 = x at hl hl' hev
  obtain rfl : Q = [] := by
    rw [hl] at hlen
    simp only [length_append, length_cons] at hlen
    exact eq_nil_of_length_eq_zero (by omega)
  rw [append_nil] at hl
  obtain ⟨R₁, y, R₂, rfl, rfl⟩ : ∃ R₁ y R₂, M = R₁ ++ y :: R₂ ∧
      m = P.length + 1 + R₁.length := by
    have hmM : m - P.length - 1 < M.length := by
      rw [hl] at hm
      simp only [length_append, length_cons] at hm
      omega
    refine ⟨M.take (m - P.length - 1), M[m - P.length - 1], M.drop (m - P.length - 1 + 1),
      by simp, ?_⟩
    rw [length_take_of_le hmM.le]
    omega
  obtain ⟨hnone, hrest⟩ := (keptOut_iff hv hl).mp hkept
  have hnd : (P ++ x :: (R₁ ++ y :: R₂)).Nodup := hl ▸ hv.order.nodup
  have hdec := decideOne_of_evicted hv hl hev
  rw [hl] at hnone hrest
  obtain ⟨z, hz, hz₀, hz₁⟩ := exists_newly_placed hv.order.nonneg hnd hdec hnone hrest
  have hextends := extends_later (Q := []) hv.rule hv.order.nonneg
    (by rwa [append_nil]) hdec
  rw [append_nil, ← hl, ← hl'] at hextends
  have hzx : z ≠ x := by
    rintro rfl
    exact (nodup_cons.mp (nodup_middle.mp hnd)).1 hz
  have hnew : (t.lay (moveEntry t.permutation P.length
      (t.permutation.length - 1))).address z ≠ none := by
    rw [hl', ← append_assoc, build_address_append (by simpa using hzx)]
    exact hz₁
  have hzl : z ∈ t.permutation := by
    rw [hl]
    simp only [mem_append, mem_cons] at hz ⊢
    tauto
  rw [← hl] at hz₀
  have hlt := hextends.quality_lt hv.order.nodup (moveEntry_perm hi hj) hpos hzl hz₀ hnew
  exact hlt.ne' hquality

/-- At the first position left out the buffer must be evicted too. -/
theorem wouldRest_of_quality (hquality : t.sweepBound i + 1 < t.permutation.length →
      (t.lay (moveEntry t.permutation i (t.sweepBound i + 1))).quality =
        (t.lay t.permutation).quality) (hbi : t.sweepBound i < i) :
    wouldRest t (t.permutation.take (t.sweepBound i + 1)) (t.permutation.getD i 0) = none := by
  by_contra hne
  rcases Nat.lt_or_ge (t.sweepBound i + 1) i with hji | hge
  · obtain ⟨P, M, Q, hl, hl', hlen, -⟩ := moveEntry_earlier hji hi
    have hnd : (P ++ t.permutation.getD i 0 :: (M ++ Q)).Nodup :=
      (perm_middle.append_left P).nodup_iff.mp (hl ▸ hv.order.nodup)
    have htake : t.permutation.take (t.sweepBound i + 1) = P := by
      rw [← hlen]
      conv_lhs => rw [hl]
      exact take_left
    rw [htake, wouldRest_of_append hv hl] at hne
    have hnew : (t.lay (moveEntry t.permutation i (t.sweepBound i + 1))).address
        (t.permutation.getD i 0) ≠ none := by
      rw [hl', build_address_self hnd]
      exact hne
    have hextends : Extends (t.lay t.permutation)
        (t.lay (moveEntry t.permutation i (t.sweepBound i + 1))) := by
      intro y a hy
      have hyP := mem_of_placed hv hi hev hl (by omega) hy
      rw [hl', build_address_left hnd hyP, ← hy]
      conv_rhs => rw [hl]
      rw [build_address_left (hl ▸ hv.order.nodup) hyP]
    have hmem : t.permutation.getD i 0 ∈ t.permutation :=
      hv.order.mem_iff.mpr (hv.order.getD_lt hi)
    have hlt := hextends.quality_lt hv.order.nodup (moveEntry_perm hi (hji.trans hi)) hpos hmem
      (address_eq_build hv hmem ▸ hev) hnew
    exact hlt.ne' (hquality (hji.trans hi))
  · -- The first position left out is its own.
    have heq : t.sweepBound i + 1 = i := by omega
    rw [heq] at hne
    have hl : t.permutation = t.permutation.take i ++
        t.permutation.getD i 0 :: t.permutation.drop (i + 1) := by
      rw [getD_eq_getElem _ _ hi]
      simp
    rw [wouldRest_of_append hv hl] at hne
    exact hne (decideOne_of_evicted hv hl hev)

theorem QualityKept.sweepCovers (h : QualityKept t i) : SweepCovers t i := by
  have hquality : ∀ j, t.sweepBound i < j → j < t.permutation.length →
      (t.lay (moveEntry t.permutation i j)).quality = (t.lay t.permutation).quality := by
    intro j hbound hj
    obtain ⟨change, t', hrot, hsame⟩ := h j hbound hj
    obtain ⟨change', t'', hrot', hmoved⟩ := exists_rotate hv hi hj
    obtain ⟨-, rfl⟩ := Prod.mk.inj (Except.ok.inj (hrot.symm.trans hrot'))
    rw [← hmoved.quality, hsame, hv.layout.quality, layoutOf]
  by_cases hlast : t.permutation.length ≤ t.sweepBound i + 1
  · exact .inl hlast
  · exact .inr ⟨fun m him hm => not_keptOut_of_quality hv hi hev hpos
      (hquality _ (by omega) (by omega)) him hm, fun hbi => wouldRest_of_quality hv hi hev hpos
      (fun hlt => hquality _ (Nat.lt_succ_self _) hlt) hbi⟩

end Covers

section Results

variable {buffers : List LifetimeBoundBuffer} {order : SetOrder} {permutation : List ℤ}
  {capacity alignment : ℤ} {eligible : Option (List Bool)} {s : Solver}

/-- When the positions the sweep leaves out for an evicted buffer cannot change the quality, in
every state the packer reaches. Where there is room no rotation of the buffer forms a sum that
overflows. Sizes matter only in that a buffer of size zero adds nothing to the quality. -/
theorem sweepUpperBound_covers_iff
    (h : construct buffers order permutation capacity alignment eligible = .ok s)
    {cs : List Call} (hroom : Roomy buffers capacity alignment cs) {i : ℕ} (hi : i < buffers.length)
    (hev : (run s cs).address ((run s cs).permutation.getD i 0) = none) :
    (run s cs).overflowed = false ∧
      (∀ j < buffers.length, ∃ change t', rotate (run s cs) i j = .ok (change, t') ∧
        t'.overflowed = false) ∧
      (SweepCovers (run s cs) i → QualityKept (run s cs) i) ∧
      ((∀ y < buffers.length, 0 < (run s cs).sizes y) →
        (QualityKept (run s cs) i ↔ SweepCovers (run s cs) i)) := by
  obtain ⟨hv, hst, -⟩ := run_construct h cs
  obtain ⟨hroom, hflag⟩ := run_construct_room h hroom
  generalize run s cs = t at hv hst hev hroom hflag ⊢
  have hn : t.st.n = buffers.length := by rw [hst, staticData]
  have hlen : t.permutation.length = buffers.length := hv.order.length.trans hn
  have hi' : i < t.permutation.length := hlen ▸ hi
  refine ⟨hflag, fun j hj => ?_, fun hc => hc.qualityKept hv hi' hev, fun hpos =>
    ⟨fun hq => hq.sweepCovers hv hi' hev fun y hy => ?_, fun hc => hc.qualityKept hv hi' hev⟩⟩
  · obtain ⟨change, t', hrot, hmoved⟩ := exists_rotate hv hi' (hlen ▸ hj)
    exact ⟨change, t', hrot, (hmoved.overflowed hroom).trans hflag⟩
  have hy : y < buffers.length := hn ▸ hv.order.mem_iff.mp hy
  have hweight : 0 < t.st.weight y := by
    have hfield : t.st.weight y = field buffers bufferWeight 0 y := by
      rw [hst]
      rfl
    rw [hfield, field_eq _ _ hy]
    exact bufferWeight_pos _
  exact mul_pos hweight (by exact_mod_cast hpos y hy)

/-- Three buffers that are live together. The second does not fit and keeps the third out, which
would fit. The sweep stops at the position of the second, and the last position has the higher
quality. -/
theorem sweepUpperBound_misses :
    ((construct [liveTogether "a" 4, liveTogether "b" 3, liveTogether "c" 2] insertionOrder
        [0, 1, 2] 6 1 none).toOption.map fun s =>
      (addresses s, Annealer.sweepUpperBound 1 (allocatedFlags s), s.totalQuality,
        (rotate s 1 2).toOption.map fun r => r.2.totalQuality)) =
      some ([some 0, none, none], 1, 10, some 15) := by
  decide +kernel

/-- The same three buffers. -/
theorem sweepUpperBound_covers_iff_three :
    ∃ s, construct [liveTogether "a" 4, liveTogether "b" 3, liveTogether "c" 2] insertionOrder
        [0, 1, 2] 6 1 none = .ok s ∧
      (QualityKept (run s []) 1 ↔ SweepCovers (run s []) 1) := by
  obtain ⟨s, hs⟩ := exists_eq_ok (x := construct [liveTogether "a" 4, liveTogether "b" 3,
    liveTogether "c" 2] insertionOrder [0, 1, 2] 6 1 none) (by decide +kernel)
  have hview : ((construct [liveTogether "a" 4, liveTogether "b" 3, liveTogether "c" 2]
      insertionOrder [0, 1, 2] 6 1 none).toOption.map fun s =>
        (s.address (s.permutation.getD 1 0), (List.range 3).all fun y => 0 < s.sizes y)) =
      some (none, true) := by decide +kernel
  rw [hs] at hview
  obtain ⟨haddr, hsizes⟩ := Prod.mk.inj (Option.some.inj hview)
  obtain ⟨-, -, -, hiff⟩ :=
    sweepUpperBound_covers_iff hs (show Roomy _ _ _ [] by decide) (i := 1) (by decide) haddr
  exact ⟨s, hs, hiff fun y hy => of_decide_eq_true (all_eq_true.mp hsizes y (mem_range.mpr hy))⟩

end Results

end PermLayout

end TorchSpyre
