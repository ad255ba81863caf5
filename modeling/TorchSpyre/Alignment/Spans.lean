import Mathlib
import TorchSpyre.Radix
import TorchSpyre.Alignment.Fusing
import TorchSpyre.Alignment.Segments

/-!
# The dimensions of a term

A term of a variable that is cut into segments gets one dimension for each segment between its
boundaries. Their digits make up the value of the term, and their sizes its own size if the
boundaries divide what it reaches (`termDims_eq_ok`). A constant is peeled in units of the
variable, not of the term, so that it stays only on a term without a denominator, or on the
dimension that counts sticks while it is below every boundary.
-/

open List

namespace TorchSpyre

open Checked Radix

namespace Alignment

/-- The dimensions of a new tensor at a point. -/
def NewTensor.at (q : Var → ℕ) (dims : NewTensor) : List (ℕ × ℕ) :=
  dims.map fun d => (d.1, d.2.eval q)

@[simp] theorem NewTensor.at_nil (q : Var → ℕ) : NewTensor.at q [] = [] := rfl

@[simp] theorem NewTensor.at_cons (q : Var → ℕ) (d : ℕ × NewCoord) (dims : NewTensor) :
    NewTensor.at q (d :: dims) = (d.1, d.2.eval q) :: NewTensor.at q dims := rfl

@[simp] theorem NewTensor.at_append (q : Var → ℕ) (dims rest : NewTensor) :
    NewTensor.at q (dims ++ rest) = NewTensor.at q dims ++ NewTensor.at q rest :=
  map_append

/-! ## Segments between two boundaries -/

section Segments

variable {b : ℕ → ℕ} {new : ℕ → Var} {q : Var → ℕ} {low high top x : ℕ}

/-- Positive boundaries from `low` on, each dividing the next. -/
structure Ascends (b : ℕ → ℕ) (low n : ℕ) : Prop where
  dvd : ∀ i, low ≤ i → i < low + n → b i ∣ b (i + 1)
  pos : ∀ i, low ≤ i → i ≤ low + n → 0 < b i

theorem Ascends.init {n : ℕ} (h : Ascends b low (n + 1)) : Ascends b low n :=
  ⟨fun i hi hlt => h.dvd i hi (by omega), fun i hi hle => h.pos i hi (by omega)⟩

theorem Ascends.dvd_last {n : ℕ} (h : Ascends b low n) : b low ∣ b (low + n) := by
  induction n with
  | zero => exact dvd_rfl
  | succ n ih => exact (ih h.init).trans (h.dvd (low + n) (by omega) (by omega))

/-- Segments below the topmost one have the sizes between their boundaries. -/
theorem segmentDims_volume :
    ∀ {n : ℕ} (offset : ℕ), low + n < high → Ascends b low n →
      volume (NewTensor.at q (segmentDims b new low high top n offset)) = b (low + n) / b low
  | 0, _, _, h => by simp [segmentDims, Nat.div_self (h.pos low le_rfl le_rfl)]
  | n + 1, offset, hlt, h => by
    have ih := segmentDims_volume (n := n) (offset % b (low + n)) (by omega) h.init
    obtain ⟨r, hr⟩ := h.init.dvd_last
    obtain ⟨m, hm⟩ := h.dvd (low + n) (by omega) (by omega)
    have hpos := h.pos low le_rfl (by omega)
    have hn := h.pos (low + n) (by omega) (by omega)
    rw [segmentDims, if_neg (by omega), NewTensor.at_cons, volume_cons, ih]
    rw [← Nat.add_assoc, hm, Nat.mul_div_cancel_left m hn, hr, Nat.mul_div_cancel_left r hpos,
      Nat.mul_assoc, Nat.mul_div_cancel_left _ hpos, Nat.mul_comm]

/-- The digits of the segments make up what lies between the boundaries. -/
theorem segmentDims_address :
    ∀ {n : ℕ} (offset : ℕ), low + (n + 1) ≤ high → Ascends b low (n + 1) →
      (∀ i, low ≤ i → i < low + (n + 1) → q (new i) = x % b (i + 1) / b i) →
      address (NewTensor.at q (segmentDims b new low high top (n + 1) offset)) =
        x % b (low + (n + 1)) / b low + offset / b low
  | 0, offset, _, _, hq => by
    simp [segmentDims, NewCoord.eval, hq low le_rfl (by omega)]
  | n + 1, offset, hle, h, hq => by
    have ih := segmentDims_address (n := n) (offset % b (low + (n + 1))) (by omega) h.init
      fun i hi hlt => hq i hi (by omega)
    have hvol : volume (NewTensor.at q (segmentDims b new low high top (n + 1)
        (offset % b (low + (n + 1))))) = _ := segmentDims_volume _ (by omega) h.init
    have hmid := h.init.dvd_last
    have hnext := h.dvd (low + (n + 1)) (by omega) (by omega)
    have hdigit := mod_div_split x hmid hnext
    have hoffset := div_split offset hmid
    rw [segmentDims, NewTensor.at_cons, address_cons, hvol, ih, NewCoord.eval,
      hq (low + (n + 1)) (by omega) (by omega), Nat.add_mul]
    rw [← Nat.add_assoc low (n + 1) 1]
    omega

/-- All segments of a term, the topmost with its own size. -/
theorem segmentDims_volume_top {n : ℕ} (offset : ℕ) (hhigh : low + (n + 1) = high)
    (h : Ascends b low n) :
    volume (NewTensor.at q (segmentDims b new low high top (n + 1) offset)) =
      top * (b (low + n) / b low) := by
  rw [segmentDims, if_pos (by omega), NewTensor.at_cons, volume_cons,
    segmentDims_volume _ (by omega) h]

/-- The innermost segment apart. -/
theorem segmentDims_succ :
    ∀ {n : ℕ} (offset : ℕ), Ascends b (low + 1) n →
      segmentDims b new low high top (n + 1) offset =
        segmentDims b new (low + 1) high top n offset ++
          [(if low + 1 = high then top else b (low + 1) / b low,
            .var (new low) ((if n = 0 then offset else offset % b (low + 1)) / b low))]
  | 0, offset, _ => by simp [segmentDims]
  | n + 1, offset, h => by
    have ih := segmentDims_succ (n := n) (offset % b (low + (n + 1))) h.init
    have hindex : low + 1 + n = low + (n + 1) := by omega
    have hchain : b (low + 1) ∣ b (low + (n + 1)) := hindex ▸ h.init.dvd_last
    have hrest : (if n = 0 then offset % b (low + (n + 1)) else
        offset % b (low + (n + 1)) % b (low + 1)) = offset % b (low + 1) := by
      split_ifs with hn
      · rw [hn]
      · exact Nat.mod_mod_of_dvd _ hchain
    rw [segmentDims, ih, segmentDims, hindex, hrest, if_neg (Nat.succ_ne_zero n)]
    rfl

end Segments

/-! ## Boundaries of a variable -/

section Boundaries

variable {range : ℕ} {split : List ℕ}

/-- The `i`th boundary. -/
def boundary (split : List ℕ) (i : ℕ) : ℕ :=
  split.getD i 0

theorem boundary_mem {i : ℕ} (hi : i < split.length) : boundary split i ∈ split := by
  rw [boundary, getD_eq_getElem _ _ hi]
  exact getElem_mem hi

theorem boundary_lt (hsorted : split.Pairwise (· < ·)) {i j : ℕ} (hij : i < j)
    (hj : j < split.length) : boundary split i < boundary split j := by
  rw [boundary, boundary, getD_eq_getElem _ _ (hij.trans hj), getD_eq_getElem _ _ hj]
  exact pairwise_iff_getElem.mp hsorted i j (hij.trans hj) hj hij

theorem Cut.boundary_zero (hcut : Cut range split) (hne : split ≠ []) : boundary split 0 = 1 := by
  rcases hcut with hnil | hone | ⟨hhead, -, -⟩
  · exact absurd hnil hne
  · rw [hone]
    rfl
  · cases split with
    | nil => cases hhead
    | cons b rest => exact Option.some.inj hhead

theorem Cut.boundary_pos (hcut : Cut range split) (hsorted : split.Pairwise (· < ·)) {i : ℕ}
    (hi : i < split.length) : 0 < boundary split i := by
  rcases Nat.eq_zero_or_pos i with rfl | hpos
  · rw [hcut.boundary_zero (ne_nil_of_length_pos hi)]
    exact Nat.one_pos
  · exact Nat.zero_lt_of_lt (boundary_lt hsorted hpos hi)

theorem Cut.boundary_dvd (hcut : Cut range split) {i : ℕ} (hi : i + 1 < split.length) :
    boundary split i ∣ boundary split (i + 1) := by
  rcases hcut with hnil | hone | ⟨-, -, hchain⟩
  · simp [hnil] at hi
  · simp [hone] at hi
  · rw [boundary, boundary, getD_eq_getElem _ _ (Nat.lt_of_succ_lt hi), getD_eq_getElem _ _ hi]
    exact isChain_iff_getElem.mp hchain i hi

theorem Cut.ascends (hcut : Cut range split) (hsorted : split.Pairwise (· < ·)) {low n : ℕ}
    (hn : low + n < split.length) : Ascends (boundary split) low n :=
  ⟨fun i _ hi => hcut.boundary_dvd (by omega), fun i _ hi => hcut.boundary_pos hsorted (by omega)⟩

/-- The boundaries lie below the range, and the last one is the range. -/
theorem Cut.boundary_last (hcut : Cut range split) (hlen : 1 < split.length) :
    boundary split (split.length - 1) = range := by
  rcases hcut with hnil | hone | ⟨-, hlast, -⟩
  · simp [hnil] at hlen
  · simp [hone] at hlen
  · rw [getLast?_eq_getElem?] at hlast
    rw [boundary, getD_eq_getElem?_getD, hlast, Option.getD_some]

theorem boundary_mem_interior {i : ℕ} (hi : i + 2 < split.length) :
    boundary split (i + 1) ∈ split.tail.dropLast := by
  rw [boundary, getD_eq_getElem _ _ (by omega)]
  refine mem_iff_getElem.mpr ⟨i, by simp; omega, ?_⟩
  simp

theorem boundaryIndex_eq_ok {splits : Var → List ℕ} {v : Var} {a i : ℕ}
    (h : boundaryIndex splits v a = .ok i) :
    i < (splits v).length ∧ boundary (splits v) i = a := by
  unfold boundaryIndex at h
  split at h
  · rename_i j hj
    obtain rfl := Except.ok.inj h
    obtain ⟨hlt, heq, -⟩ := idxOf?_eq_some_iff.mp hj
    refine ⟨hlt, ?_⟩
    rw [boundary, getD_eq_getElem _ _ hlt]
    exact heq
  · cases h

end Boundaries

/-! ## The dimensions of one term -/

/-- How a new point reads an old one : the new variables of `v` are its digits. -/
structure Reads (split : Var → List ℕ) (new : Var → ℕ → Var) (pt q : Var → ℕ) (v : Var) : Prop where
  whole : (split v).length ≤ 1 → q v = pt v
  digit : ∀ i, i + 1 < (split v).length →
    q (new v i) = pt v % boundary (split v) (i + 1) / boundary (split v) i
  first : 1 < (split v).length → new v 0 = v

/-- A point in the range of `v`, which the boundaries cut, and what reads it. -/
structure ReadsIn (split : Var → List ℕ) (new : Var → ℕ → Var) (range : Var → ℕ) (pt q : Var → ℕ)
    (v : Var) : Prop extends Reads split new pt q v where
  cut : Cut (range v) (split v)
  sorted : (split v).Pairwise (· < ·)
  lt : pt v < range v

/-- A term of `v` spans a segment, or counts the sticks of a variable with more than one value,
or the variable has one value only. -/
def Term.Spans (split : Var → List ℕ) (range : Var → ℕ) (t stick : Term) (v : Var) : Prop :=
  if t.isOuterStick split stick v then 1 < t.mod
  else t.den < t.mod ∨ t.den = t.mod ∧ range v = 1

/-- Every boundary inside the term divides what the term reaches. -/
def Term.Room (split : Var → List ℕ) (t : Term) (v : Var) : Prop :=
  ∀ b ∈ split v, b < t.mod → b ∣ t.den * t.dimSize

/-- The constant is peeled exactly : there is none, or the term has no denominator, or it counts
sticks and the constant is below every boundary inside the term. -/
def Term.Peels (split : Var → List ℕ) (t stick : Term) (v : Var) : Prop :=
  t.offset = 0 ∨
    if t.isOuterStick split stick v then ∀ b ∈ split v, 1 < b → b < t.mod → t.offset < b
    else t.den = 1

section Term

variable {split : Var → List ℕ} {new : Var → ℕ → Var} {range : Var → ℕ} {pt q : Var → ℕ}
  {stick t : Term} {v : Var} {low high : ℕ}

/-- The dimensions of a term between its own boundaries. -/
theorem spanDims_eq (h : ReadsIn split new range pt q v) (hvar : t.var = some v)
    (hlow : low < (split v).length ∧ boundary (split v) low = t.den)
    (hhigh : high < (split v).length ∧ boundary (split v) high = t.mod)
    (hspan : t.den < t.mod ∨ t.den = t.mod ∧ range v = 1) (hpeel : t.offset = 0 ∨ t.den = 1) :
    address (NewTensor.at q (spanDims split new t v low high)) = t.value pt ∧
      (t.Room split v → volume (NewTensor.at q (spanDims split new t v low high)) = t.dimSize) := by
  obtain ⟨hlow, hden⟩ := hlow
  obtain ⟨hhigh, hmod⟩ := hhigh
  have hdenpos : 0 < t.den := hden ▸ h.cut.boundary_pos h.sorted hlow
  unfold spanDims
  rcases hspan with hlt | ⟨heq, hone⟩
  · have hidx : low < high := by
      by_contra hle
      rcases Nat.eq_or_lt_of_not_lt hle with heq | hgt
      · rw [heq, hmod] at hden
        omega
      · have := boundary_lt h.sorted hgt hlow
        omega
    obtain ⟨n, rfl⟩ := Nat.exists_eq_add_of_lt hidx
    have hasc : Ascends (boundary (split v)) low (n + 1) := h.cut.ascends h.sorted hhigh
    have hn : low + n + 1 - low = n + 1 := by omega
    have hpred : low + n + 1 - 1 = low + n := rfl
    rw [if_neg (by omega), hn, hpred]
    change address (NewTensor.at q (segmentDims (boundary (split v)) (new v) low (low + n + 1)
        (t.dimSize * t.den / boundary (split v) (low + n)) (n + 1) t.offset)) = _ ∧
      (_ → volume (NewTensor.at q (segmentDims (boundary (split v)) (new v) low (low + n + 1)
        (t.dimSize * t.den / boundary (split v) (low + n)) (n + 1) t.offset)) = _)
    refine ⟨?_, fun hroom => ?_⟩
    · rw [segmentDims_address (x := pt v) t.offset (by omega) hasc fun i _ hi =>
        h.digit i (by omega)]
      rw [← Nat.add_assoc, hmod, hden, Term.value, hvar, Option.elim_some]
      rcases hpeel with hzero | hunit
      · rw [hzero, Nat.zero_div]
      · rw [hunit, Nat.div_one t.offset]
    · rw [segmentDims_volume_top (n := n) t.offset (by omega) hasc.init]
      obtain ⟨m, hm⟩ := hroom _ (boundary_mem (i := low + n) (by omega))
        (hmod ▸ boundary_lt h.sorted (by omega) hhigh)
      obtain ⟨r, hr⟩ := hasc.init.dvd_last
      have hnpos := hasc.pos (low + n) (by omega) (by omega)
      rw [Nat.mul_comm t.dimSize, hm, Nat.mul_div_cancel_left m hnpos, hr, hden,
        Nat.mul_div_cancel_left r hdenpos]
      rw [hr, hden, Nat.mul_assoc] at hm
      rw [Nat.mul_comm m, Nat.eq_of_mul_eq_mul_left hdenpos hm]
  · -- One value only : the variable itself is the coordinate.
    have hsame : low = high := by
      rcases Nat.lt_trichotomy low high with hlt | heq' | hgt
      · have := boundary_lt h.sorted hlt hhigh
        omega
      · exact heq'
      · have := boundary_lt h.sorted hgt hlow
        omega
    have hzero : pt v = 0 := by
      have := h.lt
      omega
    have hq : q v = 0 := by
      rcases Nat.lt_or_ge 1 (split v).length with hlen | hlen
      · rw [← h.first hlen, h.digit 0 hlen, hzero, Nat.zero_mod, Nat.zero_div]
      · rw [h.whole hlen, hzero]
    rw [if_pos hsame]
    simp [NewCoord.eval, hq, Term.value, hvar, hzero]

/-- The dimensions of a term that counts sticks. -/
theorem spanDims_outerStick (h : ReadsIn split new range pt q v) (hvar : t.var = some v)
    (hden : 0 < t.den)
    (hhigh : high < (split v).length ∧ boundary (split v) high = t.mod) (hmod : 1 < t.mod)
    (hpeel : t.offset = 0 ∨ ∀ b ∈ split v, 1 < b → b < t.mod → t.offset < b)
    (hstick : ∀ b ∈ (split v).tail.dropLast, t.den ∣ b) :
    address (NewTensor.at q (countSticks t.den (spanDims split new t v 0 high))) = t.value pt ∧
      (t.Room split v →
        volume (NewTensor.at q (countSticks t.den (spanDims split new t v 0 high))) = t.dimSize) ∧
      ∃ d ∈ countSticks t.den (spanDims split new t v 0 high), d.2.symbol = some v := by
  obtain ⟨hhigh, hend⟩ := hhigh
  set b := boundary (split v) with hb
  have hzero : b 0 = 1 := h.cut.boundary_zero (ne_nil_of_length_pos (Nat.zero_lt_of_lt hhigh))
  have hne : high ≠ 0 := by
    rintro rfl
    omega
  obtain ⟨n, rfl⟩ : ∃ n, high = n + 1 := ⟨high - 1, by omega⟩
  have hasc : ∀ m, m ≤ n → Ascends b 1 m := fun m hm => h.cut.ascends h.sorted (by omega)
  have hfirst : new v 0 = v := h.first (by omega)
  have hq : q v = pt v % b 1 := by
    have := h.digit 0 (by omega)
    rwa [hfirst, ← hb, hzero, Nat.div_one] at this
  set top := t.dimSize * t.den / b n with htop
  -- The innermost segment counts the sticks, below the others.
  have hdims : countSticks t.den (spanDims split new t v 0 (n + 1)) =
      segmentDims b (new v) 1 (n + 1) top n t.offset ++
        [((if 1 = n + 1 then top else b 1) / t.den,
          .quot v t.den (if n = 0 then t.offset else t.offset % b 1))] := by
    have hspan : spanDims split new t v 0 (n + 1) =
        segmentDims b (new v) 0 (n + 1) top (n + 1) t.offset := by
      rw [spanDims, if_neg (by omega)]
      rfl
    rw [hspan, segmentDims_succ t.offset (hasc n le_rfl), countSticks,
      dropLast_concat, getLast?_concat, hfirst]
    simp [hzero, Nat.div_one]
  rw [hdims, NewTensor.at_append, address_append, volume_append]
  refine ⟨?_, fun hroom => ?_, _, mem_append_right _ (mem_singleton_self _), rfl⟩
  all_goals
    simp only [NewTensor.at_cons, NewTensor.at_nil, address_cons, volume_cons, volume_nil,
      address_nil, NewCoord.eval, Nat.mul_one, Nat.add_zero, hq]
  · rw [Term.value, hvar, Option.elim_some, ← hend]
    cases n with
    | zero => simp [segmentDims]
    | succ n =>
      have hmem : b 1 ∈ split v := boundary_mem (by omega)
      have hone : 1 < b 1 := by
        have := boundary_lt h.sorted (i := 0) (j := 1) Nat.one_pos (by omega)
        rwa [← hb, hzero] at this
      have hbelow : t.offset < b 1 := by
        rcases hpeel with hnone | hall
        · omega
        · exact hall (b 1) hmem hone (hend ▸ boundary_lt h.sorted (by omega) hhigh)
      have hsticks : t.den ∣ b 1 := hstick (b 1) (boundary_mem_interior (by omega))
      have hsegs : address (NewTensor.at q (segmentDims b (new v) 1 (n + 1 + 1) top (n + 1)
          t.offset)) = pt v % b (1 + (n + 1)) / b 1 + t.offset / b 1 := segmentDims_address _
        (by omega) (hasc (n + 1) le_rfl) fun i _ hlt => h.digit i (by omega)
      have hsplit := mod_div_split (pt v) hsticks (hasc (n + 1) le_rfl).dvd_last
      have hindex : 1 + (n + 1) = n + 1 + 1 := by omega
      rw [hsegs, if_neg (by omega), if_neg (by omega), Nat.div_eq_of_lt hbelow,
        Nat.mod_eq_of_lt hbelow, Nat.add_zero]
      rw [hindex] at hsplit ⊢
      omega
  · cases n with
    | zero =>
      simp only [segmentDims, NewTensor.at_nil, volume_nil, Nat.one_mul, if_pos]
      rw [htop, hzero, Nat.div_one, Nat.mul_div_cancel _ hden]
    | succ n =>
      have hsticks : t.den ∣ b 1 := hstick (b 1) (boundary_mem_interior (by omega))
      have hsegs : volume (NewTensor.at q (segmentDims b (new v) 1 (n + 1 + 1) top (n + 1)
          t.offset)) = top * (b (1 + n) / b 1) :=
        segmentDims_volume_top _ (by omega) (hasc n (Nat.le_succ n))
      rw [hsegs, if_neg (by omega)]
      have hindex : 1 + n = n + 1 := by omega
      obtain ⟨m, hm⟩ := hroom _ (boundary_mem (i := n + 1) (by omega))
        (hend ▸ boundary_lt h.sorted (by omega) hhigh)
      obtain ⟨r, hr⟩ := (hasc n (Nat.le_succ n)).dvd_last
      obtain ⟨c, hc⟩ := hsticks
      rw [hindex] at hr ⊢
      have hnpos := (hasc (n + 1) le_rfl).pos (n + 1) (by omega) (by omega)
      have honepos := (hasc n (Nat.le_succ n)).pos 1 le_rfl (by omega)
      rw [← hb] at hm
      rw [htop, Nat.mul_comm t.dimSize, hm, Nat.mul_div_cancel_left m hnpos, hr,
        Nat.mul_div_cancel_left r honepos, hc, Nat.mul_div_cancel_left c hden]
      rw [hr, hc] at hm
      refine (Nat.eq_of_mul_eq_mul_left hden (hm.trans ?_)).symm
      ring

/-- The dimensions of a term have its value, and its size if there is room. -/
theorem termDims_eq_ok {dims : NewTensor} (h : termDims split new stick t = .ok dims)
    (hreads : ∀ v, t.var = some v → ReadsIn split new range pt q v)
    (hspan : ∀ v, t.var = some v → t.Spans split range stick v)
    (hpeel : ∀ v, t.var = some v → t.Peels split stick v)
    (hstick : ∀ v, t.var = some v → t.isOuterStick split stick v = true →
      0 < t.den ∧ ∀ b ∈ (split v).tail.dropLast, t.den ∣ b) :
    address (NewTensor.at q dims) = t.value pt ∧
      ((∀ v, t.var = some v → t.Room split v) → volume (NewTensor.at q dims) = t.dimSize) ∧
      ∀ v, t.var = some v → t.isOuterStick split stick v = true →
        ∃ d ∈ dims, d.2.symbol = some v := by
  unfold termDims at h
  cases hvar : t.var with
  | none =>
    rw [hvar] at h
    obtain rfl := Except.ok.inj h
    refine ⟨?_, fun _ => ?_, fun v hv => by cases hv⟩
    · simp [NewCoord.eval, Term.value, hvar]
    · simp
  | some v =>
    rw [hvar] at h
    obtain ⟨low, hlow, h⟩ := bind_eq_ok_iff.mp h
    obtain ⟨high, hhigh, h⟩ := bind_eq_ok_iff.mp h
    obtain ⟨-, -, h⟩ := bind_eq_ok_iff.mp h
    obtain rfl := Except.ok.inj h
    have hspan := hspan v hvar
    have hpeel := hpeel v hvar
    have hhigh := boundaryIndex_eq_ok hhigh
    unfold Term.Spans at hspan
    unfold Term.Peels at hpeel
    unfold lowIndex at hlow
    by_cases houter : t.isOuterStick split stick v = true
    · rw [if_pos houter] at hlow hspan hpeel ⊢
      obtain rfl := Except.ok.inj hlow
      obtain ⟨hden, hsticks⟩ := hstick v hvar houter
      obtain ⟨haddr, hvol, hsymbol⟩ := spanDims_outerStick (hreads v hvar) hvar hden hhigh hspan
        hpeel hsticks
      exact ⟨haddr, fun hroom => hvol (hroom v rfl), fun w hw _ => Option.some.inj hw ▸ hsymbol⟩
    · rw [if_neg houter] at hlow hspan hpeel ⊢
      obtain ⟨haddr, hvol⟩ := spanDims_eq (hreads v hvar) hvar (boundaryIndex_eq_ok hlow) hhigh
        hspan hpeel
      refine ⟨haddr, fun hroom => hvol (hroom v rfl), fun w hw hout => ?_⟩
      exact absurd (Option.some.inj hw ▸ hout) houter

end Term

end Alignment

end TorchSpyre
