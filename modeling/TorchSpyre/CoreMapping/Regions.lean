import Mathlib
import TorchSpyre.Checked
import TorchSpyre.Contiguous

/-!
# Regions of loop partitions

`_loop_regions` in `core_mapping.py` bounds the coordinates of a fused loop over each of its
partitions. A coordinate is a quotient/remainder term here, as `Term.from_coordinate` normalises
it. Without a wrap between the ends of a partition the digit grows from one end to the other, and
with one it takes its smallest and its largest value, so the bounds are exact
(`digit_bounds`).

The digits determine the loop value modulo the known modulus (`mod_knownModulus`). Where it does
not reach the extent the points are compared one by one. Different points in a box of as many
points fill it (`loopRegions_exact`).
-/

open List

namespace TorchSpyre

open Checked

namespace CoreMapping

/-- The coordinate `num * floor(Mod(p, mod) / den) + offset` of a loop value `p`. -/
structure LoopTerm where
  num : ℤ
  den : ℕ
  mod : ℕ
  offset : ℤ
  num_ne : num ≠ 0
  den_pos : 0 < den
  mod_pos : 0 < mod

namespace LoopTerm

/-- `floor(Mod(p, mod) / den)`. -/
def digit (t : LoopTerm) (p : ℕ) : ℕ :=
  p % t.mod / t.den

/-- The coordinate at a loop value. -/
def eval (t : LoopTerm) (p : ℕ) : ℤ :=
  t.num * t.digit p + t.offset

/-- The bounds from the ends of a partition. -/
def endBounds (t : LoopTerm) (first last : ℕ) : ℤ × ℤ :=
  let wraps := first / t.mod ≠ last / t.mod
  let low := t.num * ((if wraps then 0 else t.digit first : ℕ) : ℤ) + t.offset
  let high := t.num * ((if wraps then (t.mod - 1) / t.den else t.digit last : ℕ) : ℤ) + t.offset
  (min low high, max low high)

/-- The bounds from all points of a partition. -/
def pointBounds (t : LoopTerm) (first last : ℕ) : ℤ × ℤ :=
  let values := (List.range' first (last + 1 - first)).map t.eval
  (values.min?.getD 0, values.max?.getD 0)

/-- The bounds over a partition, from its ends if `analytic`. -/
def bounds (t : LoopTerm) (analytic : Bool) (first last : ℕ) : ℤ × ℤ :=
  if analytic then t.endBounds first last else t.pointBounds first last

end LoopTerm

/-- The messages of `_loop_regions`. -/
inductive RegionError where
  | repeatsElement
  | offAxis
  | notRectangle
deriving DecidableEq

/-- What a chain of digits determines the loop value modulo. -/
def knownModulus (terms : List LoopTerm) : ℕ :=
  (terms.insertionSort fun t u => t.den ≤ u.den).foldl
    (fun known t => if known % t.den = 0 ∧ t.mod % known = 0 then t.mod else known) 1

/-- The bounds over one partition. -/
def loopRegion (terms : List LoopTerm) (deviceExtents : List ℕ) (rectangles analytic : Bool)
    (first width : ℕ) : Except RegionError (List (ℤ × ℤ)) := do
  let bounds : List (ℤ × ℤ) := terms.map fun t => t.bounds analytic first (first + width - 1)
  guardE (analytic ∨ rectangles = false ∨
    ((List.range' first width).map fun p => terms.map fun t => t.eval p).Nodup) .repeatsElement
  guardE (∀ b ∈ bounds.zip deviceExtents, 0 ≤ b.1.1 ∧ b.1.2 < (b.2 : ℤ)) .offAxis
  guardE (rectangles = false ∨ (bounds.map fun b => b.2 - b.1 + 1).prod = (width : ℤ)) .notRectangle
  return bounds

/-- `_loop_regions`, for coordinates that normalise. -/
def loopRegions (extent : ℕ) (terms : List LoopTerm) (deviceExtents : List ℕ) (split : ℕ)
    (rectangles : Bool) : Except RegionError (List (List (ℤ × ℤ))) :=
  let analytic := terms ≠ [] ∧ (rectangles = false ∨ extent ≤ knownModulus terms)
  let width := extent / split
  mapE (fun slot => loopRegion terms deviceExtents rectangles analytic (slot * width) width)
    (List.range split)

/-! ## Bounds -/

namespace LoopTerm

variable (t : LoopTerm) {first last : ℕ}

/-- The smallest and the largest digit of a partition. -/
theorem digit_bounds (h : first ≤ last) :
    IsLeast (t.digit '' Set.Icc first last)
        (if first / t.mod ≠ last / t.mod then 0 else t.digit first) ∧
      IsGreatest (t.digit '' Set.Icc first last)
        (if first / t.mod ≠ last / t.mod then (t.mod - 1) / t.den else t.digit last) := by
  have hmod := t.mod_pos
  by_cases hwrap : first / t.mod = last / t.mod
  · rw [if_neg (not_not.mpr hwrap), if_neg (not_not.mpr hwrap)]
    -- the remainders grow with the loop value
    have hmono : ∀ p q, first ≤ p → p ≤ q → q ≤ last → t.digit p ≤ t.digit q := by
      intro p q hp hpq hq
      have hp' := Nat.div_le_div_right (c := t.mod) hp
      have hpq' := Nat.div_le_div_right (c := t.mod) hpq
      have hq' := Nat.div_le_div_right (c := t.mod) hq
      have heq : p / t.mod = q / t.mod := by omega
      have hmodp := Nat.div_add_mod p t.mod
      have hmodq := Nat.div_add_mod q t.mod
      rw [heq] at hmodp
      exact Nat.div_le_div_right (by omega)
    constructor
    · refine ⟨⟨first, ⟨le_rfl, h⟩, rfl⟩, ?_⟩
      rintro _ ⟨p, hp, rfl⟩
      exact hmono first p le_rfl hp.1 hp.2
    · refine ⟨⟨last, ⟨h, le_rfl⟩, rfl⟩, ?_⟩
      rintro _ ⟨p, hp, rfl⟩
      exact hmono p last hp.1 hp.2 le_rfl
  · rw [if_pos hwrap, if_pos hwrap]
    -- the last multiple of the modulus and the value before it are in the partition
    have hlt : first / t.mod < last / t.mod :=
      lt_of_le_of_ne (Nat.div_le_div_right h) hwrap
    have hmul : first < t.mod * (last / t.mod) := by
      have := Nat.lt_mul_of_div_lt hlt hmod
      rwa [mul_comm] at this
    have hle := Nat.mul_div_le last t.mod
    constructor
    · refine ⟨⟨t.mod * (last / t.mod), ⟨hmul.le, hle⟩, ?_⟩, fun _ _ => Nat.zero_le _⟩
      simp [digit]
    · refine ⟨⟨t.mod * (last / t.mod) - 1, ⟨by omega, by omega⟩, ?_⟩, ?_⟩
      · obtain ⟨k, hk⟩ := Nat.exists_eq_succ_of_ne_zero (Nat.ne_zero_of_lt hlt)
        have hsub : t.mod * (last / t.mod) - 1 = t.mod * k + (t.mod - 1) := by
          rw [hk, Nat.mul_succ]
          omega
        rw [digit, hsub, Nat.mul_add_mod, Nat.mod_eq_of_lt (by omega)]
      · rintro _ ⟨p, -, rfl⟩
        exact Nat.div_le_div_right (Nat.le_sub_one_of_lt (Nat.mod_lt p hmod))

/-- A coordinate has its bounds at those of its digit. -/
theorem eval_bounds {S : Set ℕ} {low high : ℕ} (hlow : IsLeast (t.digit '' S) low)
    (hhigh : IsGreatest (t.digit '' S) high) :
    IsLeast (t.eval '' S) (min (t.num * low + t.offset) (t.num * high + t.offset)) ∧
      IsGreatest (t.eval '' S) (max (t.num * low + t.offset) (t.num * high + t.offset)) := by
  have himage : t.eval '' S = (fun x : ℕ => t.num * x + t.offset) '' (t.digit '' S) := by
    rw [Set.image_image]
    rfl
  have hle : (low : ℤ) ≤ high := by exact_mod_cast hlow.2 hhigh.1
  rw [himage]
  rcases t.num_ne.lt_or_gt with hneg | hpos
  · have hanti : Antitone fun x : ℕ => t.num * x + t.offset := fun x y hxy => by
      have : (x : ℤ) ≤ y := by exact_mod_cast hxy
      dsimp only
      nlinarith
    rw [min_eq_right (by nlinarith), max_eq_left (by nlinarith)]
    exact ⟨hanti.map_isGreatest hhigh, hanti.map_isLeast hlow⟩
  · have hmono : Monotone fun x : ℕ => t.num * x + t.offset := fun x y hxy => by
      have : (x : ℤ) ≤ y := by exact_mod_cast hxy
      dsimp only
      nlinarith
    rw [min_eq_left (by nlinarith), max_eq_right (by nlinarith)]
    exact ⟨hmono.map_isLeast hlow, hmono.map_isGreatest hhigh⟩

theorem endBounds_exact (h : first ≤ last) :
    IsLeast (t.eval '' Set.Icc first last) (t.endBounds first last).1 ∧
      IsGreatest (t.eval '' Set.Icc first last) (t.endBounds first last).2 :=
  t.eval_bounds (t.digit_bounds h).1 (t.digit_bounds h).2

theorem pointBounds_exact (h : first ≤ last) :
    IsLeast (t.eval '' Set.Icc first last) (t.pointBounds first last).1 ∧
      IsGreatest (t.eval '' Set.Icc first last) (t.pointBounds first last).2 := by
  have hvalues : {x | x ∈ (List.range' first (last + 1 - first)).map t.eval} =
      t.eval '' Set.Icc first last := by
    ext x
    simp only [Set.mem_ofPred_eq, mem_map, mem_range'_1, Set.mem_image, Set.mem_Icc]
    refine exists_congr fun p => and_congr_left fun _ => ?_
    omega
  have hne : (List.range' first (last + 1 - first)).map t.eval ≠ [] := by
    simp
    omega
  rw [← hvalues]
  exact ⟨Lists.isLeast_min? hne, Lists.isGreatest_max? hne⟩

theorem bounds_exact (analytic : Bool) (h : first ≤ last) :
    IsLeast (t.eval '' Set.Icc first last) (t.bounds analytic first last).1 ∧
      IsGreatest (t.eval '' Set.Icc first last) (t.bounds analytic first last).2 := by
  cases analytic with
  | true => exact t.endBounds_exact h
  | false => exact t.pointBounds_exact h

end LoopTerm

/-! ## Rectangles -/

variable {terms : List LoopTerm}

/-- The digits of a chain determine the loop value modulo the known modulus. -/
theorem mod_knownModulus {p q : ℕ} (h : ∀ t ∈ terms, t.eval p = t.eval q) :
    p % knownModulus terms = q % knownModulus terms := by
  unfold knownModulus
  have h' : ∀ t ∈ terms.insertionSort fun t u => t.den ≤ u.den, t.digit p = t.digit q := by
    intro t ht
    have heval := h t ((mem_insertionSort _).mp ht)
    have := mul_left_cancel₀ t.num_ne (add_right_cancel heval)
    exact_mod_cast this
  refine List.foldlRecOn (motive := fun known => p % known = q % known) _ _ (by simp [Nat.mod_one])
    fun known hknown t ht => ?_
  split_ifs with hchain
  · have hden := Nat.dvd_of_mod_eq_zero hchain.1
    have hmod := hden.trans (Nat.dvd_of_mod_eq_zero hchain.2)
    have hrest : p % t.mod % t.den = q % t.mod % t.den := by
      rw [Nat.mod_mod_of_dvd p hmod, Nat.mod_mod_of_dvd q hmod, ← Nat.mod_mod_of_dvd p hden,
        ← Nat.mod_mod_of_dvd q hden, hknown]
    rw [← Nat.div_add_mod (p % t.mod) t.den, ← Nat.div_add_mod (q % t.mod) t.den, hrest]
    exact congrArg (t.den * · + q % t.mod % t.den) (h' t ht)
  · exact hknown

/-- The coordinates of a loop value. -/
def tuple (terms : List LoopTerm) (p : ℕ) (i : Fin terms.length) : ℤ :=
  (terms.get i).eval p

theorem eval_eq_of_tuple_eq {p q : ℕ} (h : tuple terms p = tuple terms q) :
    ∀ t ∈ terms, t.eval p = t.eval q := by
  intro t ht
  obtain ⟨i, rfl⟩ := get_of_mem ht
  exact congrFun h i

/-- Different points in a box of as many points fill it. -/
theorem image_eq_box (bound : LoopTerm → ℤ × ℤ) {S : Finset ℕ}
    (hbound : ∀ t ∈ terms, ∀ p ∈ S, (bound t).1 ≤ t.eval p ∧ t.eval p ≤ (bound t).2)
    (hle : ∀ t ∈ terms, (bound t).1 ≤ (bound t).2) (hinj : Set.InjOn (tuple terms) S)
    (hprod : (terms.map fun t => (bound t).2 - (bound t).1 + 1).prod = S.card) :
    tuple terms '' S =
      Set.Icc (fun i => (bound (terms.get i)).1) fun i => (bound (terms.get i)).2 := by
  classical
  have hsub : S.image (tuple terms) ⊆
      Finset.Icc (fun i => (bound (terms.get i)).1) fun i => (bound (terms.get i)).2 := by
    intro x hx
    obtain ⟨p, hp, rfl⟩ := Finset.mem_image.mp hx
    exact Finset.mem_Icc.mpr ⟨fun i => (hbound _ (get_mem terms i) p hp).1,
      fun i => (hbound _ (get_mem terms i) p hp).2⟩
  have hvolume : ((Finset.Icc (fun i => (bound (terms.get i)).1)
      fun i => (bound (terms.get i)).2).card : ℤ) = S.card := by
    rw [Pi.card_Icc, Nat.cast_prod, ← hprod, ← Fin.prod_univ_fun_getElem]
    refine Finset.prod_congr rfl fun i _ => ?_
    have := hle _ (get_mem terms i)
    simp only [get_eq_getElem] at this ⊢
    rw [Int.card_Icc, Int.toNat_of_nonneg (by omega)]
    ring
  have heq := Finset.eq_of_subset_of_card_le hsub (by
    rw [Finset.card_image_of_injOn hinj]
    exact_mod_cast hvolume.le)
  rw [← Finset.coe_image, heq, Finset.coe_Icc]

/-- The loop values of a slot. -/
def partition (extent split slot : ℕ) : Set ℕ :=
  Set.Ico (slot * (extent / split)) ((slot + 1) * (extent / split))

/-- The bounds over each partition are exact, and with `rectangles` the coordinate tuples of a
partition are different and fill the product of the bounds. -/
theorem loopRegions_exact {extent split : ℕ} (hextent : 0 < extent) (hsplit : split ∣ extent)
    (deviceExtents : List ℕ) {rectangles : Bool} {regions : List (List (ℤ × ℤ))}
    (h : loopRegions extent terms deviceExtents split rectangles = .ok regions) {slot : ℕ}
    (hslot : slot < split) :
    ∃ bound : LoopTerm → ℤ × ℤ, regions[slot]? = some (terms.map bound) ∧
      (∀ t ∈ terms, IsLeast (t.eval '' partition extent split slot) (bound t).1 ∧
        IsGreatest (t.eval '' partition extent split slot) (bound t).2) ∧
      (rectangles = true → Set.InjOn (tuple terms) (partition extent split slot) ∧
        tuple terms '' partition extent split slot =
          Set.Icc (fun i => (bound (terms.get i)).1) fun i => (bound (terms.get i)).2) := by
  obtain ⟨width, rfl⟩ := hsplit
  have hwidth : 0 < width := Nat.pos_of_mul_pos_left hextent
  rw [loopRegions, Nat.mul_div_cancel_left width (Nat.zero_lt_of_lt hslot)] at h
  have hpartition : partition (split * width) split slot =
      ↑(Finset.Icc (slot * width) (slot * width + width - 1)) := by
    ext p
    simp only [partition, Nat.mul_div_cancel_left width (Nat.zero_lt_of_lt hslot), Set.mem_Ico,
      Finset.coe_Icc, Set.mem_Icc, Nat.succ_mul]
    omega
  rw [hpartition]
  obtain ⟨bounds, hget, hregion⟩ := getElem?_of_mapE h (getElem?_range hslot)
  generalize hdef : decide (terms ≠ [] ∧
    (rectangles = false ∨ split * width ≤ knownModulus terms)) = analytic at hregion
  obtain ⟨_, hdistinct, hregion⟩ := bind_eq_ok_iff.mp hregion
  obtain ⟨_, -, hregion⟩ := bind_eq_ok_iff.mp hregion
  obtain ⟨_, hprod, hregion⟩ := bind_eq_ok_iff.mp hregion
  rw [← Except.ok.inj hregion] at hget
  rw [guardE_eq_ok_iff] at hdistinct hprod
  have hends : slot * width ≤ slot * width + width - 1 := by omega
  have hexact := fun t : LoopTerm => t.bounds_exact analytic hends
  rw [← Finset.coe_Icc] at hexact
  refine ⟨fun t => t.bounds analytic _ _, hget, fun t _ => hexact t, fun hrect => ?_⟩
  have hinj : Set.InjOn (tuple terms) ↑(Finset.Icc (slot * width) (slot * width + width - 1)) := by
    intro p hp q hq heq
    have heval := eval_eq_of_tuple_eq heq
    simp only [Finset.coe_Icc, Set.mem_Icc] at hp hq
    rcases hdistinct with hanalytic | hfalse | hnodup
    · obtain ⟨-, hknown⟩ := of_decide_eq_true (hdef.trans hanalytic)
      have hlt : slot * width + width ≤ split * width := by
        rw [← Nat.succ_mul]
        exact Nat.mul_le_mul_right width hslot
      have hextent := hlt.trans (hknown.resolve_left (by simp [hrect]))
      have hmod := mod_knownModulus heval
      rwa [Nat.mod_eq_of_lt (by omega), Nat.mod_eq_of_lt (by omega)] at hmod
    · cases hrect.symm.trans hfalse
    · refine inj_on_of_nodup_map hnodup ?_ ?_ (map_congr_left heval)
      · exact mem_range'_1.mpr (by omega)
      · exact mem_range'_1.mpr (by omega)
  refine ⟨hinj, image_eq_box (fun t => t.bounds analytic _ _) (fun t _ p hp => ?_)
    (fun t _ => ?_) hinj ?_⟩
  · exact ⟨(hexact t).1.2 ⟨p, hp, rfl⟩, (hexact t).2.2 ⟨p, hp, rfl⟩⟩
  · exact (hexact t).1.2 (hexact t).2.1
  · have hcard : (Finset.Icc (slot * width) (slot * width + width - 1)).card = width := by
      rw [Nat.card_Icc]
      omega
    rw [hcard, ← hprod.resolve_left (by simp [hrect]), map_map]
    rfl

/-- The row of four values in two rows. -/
def rowTerm : LoopTerm :=
  ⟨1, 2, 4, 0, by decide, by decide, by decide⟩

/-- The column of four values. -/
def columnTerm : LoopTerm :=
  ⟨1, 1, 2, 0, by decide, by decide, by decide⟩

/-- The second of two partitions of four values is the second row. -/
theorem loopRegions_exact_row :
    ∃ bound : LoopTerm → ℤ × ℤ,
      ([[(0, 0), (0, 1)], [(1, 1), (0, 1)]] : List (List (ℤ × ℤ)))[1]? =
        some ([rowTerm, columnTerm].map bound) ∧
      (∀ t ∈ [rowTerm, columnTerm], IsLeast (t.eval '' partition 4 2 1) (bound t).1 ∧
        IsGreatest (t.eval '' partition 4 2 1) (bound t).2) ∧
      (true = true → Set.InjOn (tuple [rowTerm, columnTerm]) (partition 4 2 1) ∧
        tuple [rowTerm, columnTerm] '' partition 4 2 1 =
          Set.Icc (fun i => (bound ([rowTerm, columnTerm].get i)).1)
            fun i => (bound ([rowTerm, columnTerm].get i)).2) :=
  loopRegions_exact (by decide) (by decide) [2, 2] (by decide +kernel) (by decide)

end CoreMapping

end TorchSpyre
