import Mathlib
import TorchSpyre.Checked
import TorchSpyre.Layout.Tensor
import TorchSpyre.Tiling.Advance

/-!
# Resizing a device tensor

`spyre_resize_` in `spyre_mem.cpp`. A resize that needs no more storage, has no more elements and no
longer rows keeps the bytes and gives them the default layout of the new shape. Any other resize
goes through the host, which keeps the elements in row-major order.

A layout puts rows into sticks, the last of which is filled only in part. Where the sticks of a row
are depends on the leading dimension of the order, which is the innermost one on the device. So a
stick that the old layout fills in part may be one the new shape reads as a whole
(`threeRows_reads_padding`). A dimension order makes an array of a shape (`arranged`), and the
elements are at the first places of each stick of that array (`exists_positionIn_iff`), which gives
the exact condition.
-/

open List Function

namespace TorchSpyre

open Checked Strided Tiling

namespace Transfer

/-! ## Places in sticks

An array of `L` by `M` rows of `c` elements, in sticks of `S`. The rows are cut into sticks, and the
sticks are listed with the leading dimension innermost. -/

section Sticks

variable {L M c S : ℕ}

/-- The number of sticks of a row. -/
def sticksOf (c S : ℕ) : ℕ := (c + S - 1) / S

/-- The number of elements in stick `t`. The last stick of a row has what is left of the row. -/
def stickFill (L c S t : ℕ) : ℕ :=
  if t / L % sticksOf c S + 1 = sticksOf c S then c - (sticksOf c S - 1) * S else S

/-- The place of element `y` of row `A` at leading index `x`. -/
def stickPlace (L c S x A y : ℕ) : ℕ :=
  ((A * sticksOf c S + y / S) * L + x) * S + y % S

theorem mul_add_div_of_lt {q r n : ℕ} (h : r < n) : (q * n + r) / n = q := by
  rw [Nat.add_comm, Nat.add_mul_div_right _ _ (Nat.zero_lt_of_lt h), Nat.div_eq_of_lt h,
    Nat.zero_add]

theorem mul_add_lt {q r n m : ℕ} (hq : q < m) (hr : r < n) : q * n + r < m * n := by
  have := Nat.mul_le_mul_right n (Nat.succ_le_of_lt hq)
  rw [Nat.succ_mul] at this
  omega

theorem sub_one_mul_lt (hS : 0 < S) (hc : 0 < c) : (sticksOf c S - 1) * S < c := by
  have h := Nat.div_mul_le_self (c + S - 1) S
  rw [sticksOf, Nat.sub_mul]
  omega

theorem le_sticksOf_mul (hS : 0 < S) : c ≤ sticksOf c S * S := by
  have h := Nat.lt_div_mul_add (a := c + S - 1) hS
  rw [sticksOf]
  omega

theorem pos_of_sticksOf_pos (hS : 0 < S) (h : 0 < sticksOf c S) : 0 < c := by
  by_contra hzero
  rw [sticksOf, Nat.eq_zero_of_not_pos hzero, Nat.zero_add, Nat.div_eq_of_lt (by omega)] at h
  exact lt_irrefl 0 h

theorem div_lt_sticksOf (hS : 0 < S) {y : ℕ} (hy : y < c) : y / S < sticksOf c S :=
  (Nat.div_lt_iff_lt_mul hS).2 (hy.trans_le (le_sticksOf_mul hS))

/-- The stick of a place, and the place in it. -/
theorem stickPlace_div (hS : 0 < S) (x A y : ℕ) :
    stickPlace L c S x A y / S = (A * sticksOf c S + y / S) * L + x :=
  mul_add_div_of_lt (Nat.mod_lt y hS)

theorem stickPlace_mod (x A y : ℕ) : stickPlace L c S x A y % S = y % S := by
  rw [stickPlace, Nat.mul_add_mod', Nat.mod_mod]

/-- The coordinates of a stick. -/
theorem stick_coords {C x A q : ℕ} (hx : x < L) (hq : q < C) :
    ((A * C + q) * L + x) % L = x ∧ ((A * C + q) * L + x) / L % C = q ∧
      ((A * C + q) * L + x) / L / C = A := by
  rw [mul_add_div_of_lt hx]
  exact ⟨Nat.mul_add_mod_of_lt hx, Nat.mul_add_mod_of_lt hq, mul_add_div_of_lt hq⟩

theorem stickPlace_inj (hS : 0 < S) {x x' A A' y y' : ℕ} (hx : x < L) (hx' : x' < L) (hy : y < c)
    (hy' : y' < c) (h : stickPlace L c S x A y = stickPlace L c S x' A' y') :
    x = x' ∧ A = A' ∧ y = y' := by
  have hstick := congrArg (· / S) h
  have hin := congrArg (· % S) h
  simp only [stickPlace_div hS, stickPlace_mod] at hstick hin
  obtain ⟨hl, hm, hr⟩ := stick_coords (A := A) hx (div_lt_sticksOf hS hy)
  obtain ⟨hl', hm', hr'⟩ := stick_coords (A := A') hx' (div_lt_sticksOf hS hy')
  rw [hstick] at hl hm hr
  refine ⟨hl.symm.trans hl', hr.symm.trans hr', ?_⟩
  rw [← Nat.div_add_mod y S, ← Nat.div_add_mod y' S, hin, hm.symm.trans hm']

/-- The elements of an array are at the first places of its sticks. -/
theorem exists_stickPlace_iff (hS : 0 < S) {p : ℕ} :
    (∃ x < L, ∃ A < M, ∃ y < c, stickPlace L c S x A y = p) ↔
      p / S < M * sticksOf c S * L ∧ p % S < stickFill L c S (p / S) := by
  constructor
  · rintro ⟨x, hx, A, hA, y, hy, rfl⟩
    have hq := div_lt_sticksOf hS hy
    obtain ⟨-, hmod, -⟩ := stick_coords (A := A) hx hq
    rw [stickPlace_div hS, stickPlace_mod, stickFill, hmod]
    refine ⟨mul_add_lt (mul_add_lt hA hq) hx, ?_⟩
    have hy' := Nat.div_add_mod' y S
    split_ifs with hlast
    · rw [← hlast, Nat.add_sub_cancel]
      omega
    · exact Nat.mod_lt y hS
  · rintro ⟨hstick, hin⟩
    have hMC : 0 < M * sticksOf c S * L := Nat.zero_lt_of_lt hstick
    have hL : 0 < L := Nat.pos_of_mul_pos_left hMC
    have hC : 0 < sticksOf c S := Nat.pos_of_mul_pos_left (Nat.pos_of_mul_pos_right hMC)
    have hdiv : p / S / L < M * sticksOf c S := (Nat.div_lt_iff_lt_mul hL).2 hstick
    set t := p / S with ht
    have hq : t / L % sticksOf c S < sticksOf c S := Nat.mod_lt _ hC
    have hy : t / L % sticksOf c S * S + p % S < c := by
      have hlt := sub_one_mul_lt hS (pos_of_sticksOf_pos hS hC)
      have hmod := Nat.mod_lt p hS
      rw [stickFill] at hin
      split_ifs at hin with hlast
      · have hqval : t / L % sticksOf c S = sticksOf c S - 1 := by omega
        rw [hqval]
        omega
      · have hle : t / L % sticksOf c S + 1 ≤ sticksOf c S - 1 := by omega
        have := Nat.mul_le_mul_right S hle
        rw [Nat.succ_mul] at this
        omega
    refine ⟨t % L, Nat.mod_lt _ hL, t / L / sticksOf c S, (Nat.div_lt_iff_lt_mul hC).2 hdiv, _, hy,
      ?_⟩
    rw [stickPlace, mul_add_div_of_lt (Nat.mod_lt p hS), Nat.mul_add_mod', Nat.mod_mod,
      Nat.div_add_mod', Nat.div_add_mod', ht, Nat.div_add_mod']

end Sticks

/-! ## Coordinates -/

/-- The coordinates of an element, from its place in row-major order. -/
def coordsOf : List ℕ → ℕ → List ℕ
  | [], _ => []
  | _ :: shape, k => k / shape.prod :: coordsOf shape (k % shape.prod)

/-- The place in row-major order of the element at some coordinates. -/
def indexOf : List ℕ → List ℕ → ℕ
  | _ :: shape, x :: xs => x * shape.prod + indexOf shape xs
  | _, _ => 0

section Coordinates

variable {shape xs : List ℕ} {k : ℕ}

theorem coordsOf_lt (hk : k < shape.prod) : Forall₂ (· < ·) (coordsOf shape k) shape := by
  induction shape generalizing k with
  | nil => exact .nil
  | cons n shape ih =>
    rw [prod_cons] at hk
    have hpos : 0 < shape.prod := Nat.pos_of_ne_zero fun hzero => by simp [hzero] at hk
    exact .cons ((Nat.div_lt_iff_lt_mul hpos).2 hk) (ih (Nat.mod_lt _ hpos))

theorem indexOf_coordsOf (hk : k < shape.prod) : indexOf shape (coordsOf shape k) = k := by
  induction shape generalizing k with
  | nil =>
    rw [prod_nil, Nat.lt_one_iff] at hk
    rw [hk]
    rfl
  | cons n shape ih =>
    have hpos : 0 < shape.prod :=
      Nat.pos_of_ne_zero fun hzero => by simp [hzero] at hk
    rw [coordsOf, indexOf, ih (Nat.mod_lt _ hpos)]
    exact Nat.div_add_mod' k shape.prod

theorem indexOf_lt (h : Forall₂ (· < ·) xs shape) : indexOf shape xs < shape.prod := by
  induction h with
  | nil => exact Nat.one_pos
  | cons hx _ ih =>
    rw [indexOf, prod_cons]
    exact mul_add_lt hx ih

theorem coordsOf_indexOf (h : Forall₂ (· < ·) xs shape) :
    coordsOf shape (indexOf shape xs) = xs := by
  induction h with
  | nil => rfl
  | cons _ hrest ih =>
    have hlt := indexOf_lt hrest
    rw [indexOf, coordsOf, mul_add_div_of_lt hlt, Nat.mul_add_mod_of_lt hlt, ih]

theorem linearAddress_eq_indexOf (shape xs : List ℕ) :
    linearAddress shape (xs.map fun n : ℕ => (n : ℤ)) = indexOf shape xs := by
  induction shape generalizing xs with
  | nil => rfl
  | cons n shape ih =>
    cases xs with
    | nil => rfl
    | cons x xs =>
      rw [map_cons, linearAddress, ih, indexOf]
      push_cast
      rfl

end Coordinates

/-- A list is empty, has one element, or a first and a last one. -/
theorem ends_cases {α : Type} (l : List α) :
    l = [] ∨ (∃ c, l = [c]) ∨ ∃ a mid c, l = a :: (mid ++ [c]) := by
  cases l with
  | nil => exact .inl rfl
  | cons a rest =>
    rcases eq_nil_or_concat rest with rfl | ⟨mid, c, rfl⟩
    · exact .inr (.inl ⟨a, rfl⟩)
    · exact .inr (.inr ⟨a, mid, c, by simp⟩)

/-! ## The sticks of an array

The sizes `arr` and coordinates `ys` are listed as the layout has them : the dimension that is
innermost on the device first and the one that is cut into sticks last. -/

/-- The size of the leading dimension, which is innermost on the device. A row alone has none. -/
def leadingSize (arr : List ℕ) : ℕ :=
  if arr.length ≤ 1 then 1 else arr.headD 1

/-- The number of rows at one leading index. -/
def rowCount (arr : List ℕ) : ℕ := (arr.dropLast.drop 1).prod

/-- The length of a row. -/
def rowLength (arr : List ℕ) : ℕ := arr.getLastD 1

/-- The number of sticks of an array. -/
def stickCount (S : ℕ) (arr : List ℕ) : ℕ :=
  rowCount arr * sticksOf (rowLength arr) S * leadingSize arr

/-- The number of elements in stick `t` of an array. -/
def fillOf (S : ℕ) (arr : List ℕ) (t : ℕ) : ℕ :=
  stickFill (leadingSize arr) (rowLength arr) S t

/-- The sizes of the device dimensions of an array. -/
def stickSizes (S : ℕ) (arr : List ℕ) : List ℕ :=
  arr.dropLast.drop 1 ++ sticksOf (rowLength arr) S ::
    if arr.length ≤ 1 then [S] else [arr.headD 1, S]

/-- The place of an element of an array. -/
def placeIn (S : ℕ) (arr ys : List ℕ) : ℕ :=
  stickPlace (leadingSize arr) (rowLength arr) S (if arr.length ≤ 1 then 0 else ys.headD 0)
    (indexOf (arr.dropLast.drop 1) (ys.dropLast.drop 1)) (ys.getLastD 0)

section Array

variable {S a c x y : ℕ} {arr mid xs ys ys' : List ℕ}

theorem middle_array {α : Type} (a c : α) (mid : List α) :
    (a :: (mid ++ [c])).dropLast.drop 1 = mid := by
  rw [← cons_append, dropLast_concat, drop_one, tail_cons]

theorem leadingSize_array : leadingSize (a :: (mid ++ [c])) = a := by
  simp [leadingSize]

theorem rowCount_array : rowCount (a :: (mid ++ [c])) = mid.prod := by
  rw [rowCount, middle_array]

theorem rowLength_array : rowLength (a :: (mid ++ [c])) = c := by
  rw [rowLength, ← cons_append, getLastD_concat]

theorem stickSizes_array :
    stickSizes S (a :: (mid ++ [c])) = mid ++ [sticksOf c S, a, S] := by
  simp only [stickSizes, middle_array, rowLength_array]
  simp

theorem placeIn_array : placeIn S (a :: (mid ++ [c])) (x :: (xs ++ [y])) =
    stickPlace a c S x (indexOf mid xs) y := by
  have hlast : (x :: (xs ++ [y])).getLastD 0 = y := by rw [← cons_append, getLastD_concat]
  rw [placeIn, leadingSize_array, rowLength_array, middle_array, middle_array, hlast]
  simp

/-- The coordinates of an array, from the front to the back. -/
theorem within_array (h : Forall₂ (· < ·) ys (a :: (mid ++ [c]))) :
    ∃ x < a, ∃ xs, Forall₂ (· < ·) xs mid ∧ ∃ y < c, ys = x :: (xs ++ [y]) := by
  obtain ⟨x, rest, hx, hrest, rfl⟩ := forall₂_cons_right_iff.1 h
  obtain ⟨xs, last, hxs, hlast, rfl⟩ : ∃ xs last, Forall₂ (· < ·) xs mid ∧
      Forall₂ (· < ·) last [c] ∧ rest = xs ++ last :=
    ⟨_, _, forall₂_take_append _ _ _ hrest, forall₂_drop_append _ _ _ hrest,
      (take_append_drop _ _).symm⟩
  obtain ⟨y, _, hy, hnil, rfl⟩ := forall₂_cons_right_iff.1 hlast
  obtain rfl := forall₂_nil_right_iff.1 hnil
  exact ⟨x, hx, xs, hxs, y, hy, rfl⟩

theorem placeIn_inj (hS : 0 < S) (h : Forall₂ (· < ·) ys arr) (h' : Forall₂ (· < ·) ys' arr)
    (heq : placeIn S arr ys = placeIn S arr ys') : ys = ys' := by
  rcases ends_cases arr with rfl | ⟨c, rfl⟩ | ⟨a, mid, c, rfl⟩
  · rw [forall₂_nil_right_iff.1 h, forall₂_nil_right_iff.1 h']
  · obtain ⟨y, _, hy, hnil, rfl⟩ := forall₂_cons_right_iff.1 h
    obtain ⟨y', _, hy', hnil', rfl⟩ := forall₂_cons_right_iff.1 h'
    obtain rfl := forall₂_nil_right_iff.1 hnil
    obtain rfl := forall₂_nil_right_iff.1 hnil'
    obtain ⟨-, -, rfl⟩ := stickPlace_inj hS Nat.one_pos Nat.one_pos hy hy' heq
    rfl
  · obtain ⟨x, hx, xs, hxs, y, hy, rfl⟩ := within_array h
    obtain ⟨x', hx', xs', hxs', y', hy', rfl⟩ := within_array h'
    rw [placeIn_array, placeIn_array] at heq
    obtain ⟨rfl, hindex, rfl⟩ := stickPlace_inj hS hx hx' hy hy' heq
    rw [← coordsOf_indexOf hxs, ← coordsOf_indexOf hxs', hindex]

/-- The elements of an array are at the first places of each of its sticks. -/
theorem exists_placeIn_iff (hS : 0 < S) {p : ℕ} :
    (∃ ys, Forall₂ (· < ·) ys arr ∧ placeIn S arr ys = p) ↔
      p / S < stickCount S arr ∧ p % S < fillOf S arr (p / S) := by
  rw [stickCount, fillOf, ← exists_stickPlace_iff hS]
  rcases ends_cases arr with rfl | ⟨c, rfl⟩ | ⟨a, mid, c, rfl⟩
  · constructor
    · rintro ⟨ys, hys, rfl⟩
      obtain rfl := forall₂_nil_right_iff.1 hys
      exact ⟨0, Nat.one_pos, 0, Nat.one_pos, 0, Nat.one_pos, rfl⟩
    · rintro ⟨x, hx, A, hA, y, hy, rfl⟩
      obtain rfl := Nat.lt_one_iff.1 hx
      obtain rfl := Nat.lt_one_iff.1 hA
      obtain rfl := Nat.lt_one_iff.1 hy
      exact ⟨[], .nil, rfl⟩
  · constructor
    · rintro ⟨ys, hys, rfl⟩
      obtain ⟨y, _, hy, hnil, rfl⟩ := forall₂_cons_right_iff.1 hys
      obtain rfl := forall₂_nil_right_iff.1 hnil
      exact ⟨0, Nat.one_pos, 0, Nat.one_pos, y, hy, rfl⟩
    · rintro ⟨x, hx, A, hA, y, hy, rfl⟩
      obtain rfl := Nat.lt_one_iff.1 hx
      obtain rfl := Nat.lt_one_iff.1 hA
      exact ⟨[y], .cons hy .nil, rfl⟩
  · rw [leadingSize_array, rowCount_array, rowLength_array]
    constructor
    · rintro ⟨ys, hys, rfl⟩
      obtain ⟨x, hx, xs, hxs, y, hy, rfl⟩ := within_array hys
      exact ⟨x, hx, _, indexOf_lt hxs, y, hy, placeIn_array.symm⟩
    · rintro ⟨x, hx, A, hA, y, hy, rfl⟩
      refine ⟨x :: (coordsOf mid A ++ [y]),
        .cons hx (rel_append (coordsOf_lt hA) (.cons hy .nil)), ?_⟩
      rw [placeIn_array, indexOf_coordsOf hA]

end Array

/-! ## Layouts -/

/-- `generic_stick_dim_order`. -/
def genericStickDimOrder (numDims : ℕ) : DimOrder numDims where
  dims := List.range numDims
  perm := .refl _
  sparse := false

/-- `compute_host_stride`. -/
def computeHostStride : List ℕ → List ℕ
  | [] => []
  | _ :: shape => shape.prod :: computeHostStride shape

/-- The layout of a contiguous tensor with a dimension order. -/
def layoutIn (S : ℕ) (shape : List ℕ) (o : DimOrder shape.length) :
    Except String SpyreTensorLayout :=
  SpyreTensorLayout.init shape (computeHostStride shape) S o.toList

/-- `SpyreTensorLayout(size, dtype)`. -/
def layoutOf (S : ℕ) (shape : List ℕ) : Except String SpyreTensorLayout :=
  layoutIn S shape (genericStickDimOrder shape.length)

/-- Where a layout has an element. -/
def positionIn (S : ℕ) (shape : List ℕ) (o : DimOrder shape.length) (layout : SpyreTensorLayout)
    (k : ℕ) : ℕ :=
  (devicePosition o S layout fun d => (coordsOf shape k).getD d 0).toNat

/-- Where the layout of a shape has an element. -/
def position (S : ℕ) (shape : List ℕ) (layout : SpyreTensorLayout) (k : ℕ) : ℕ :=
  positionIn S shape (genericStickDimOrder shape.length) layout k

/-- The sizes of a shape as an order lists them. The `-1` of a sparse order stands for a dimension
of size one. -/
def arranged (order : List (Option ℕ)) (shape : List ℕ) : List ℕ :=
  order.map fun d => d.elim 1 (shape.getD · 0)

/-- The coordinates of an element as an order lists them. -/
def arrangedCoords (order : List (Option ℕ)) (xs : List ℕ) : List ℕ :=
  order.map fun d => d.elim 0 (xs.getD · 0)

section Layouts

variable {S : ℕ} {shape xs xs' ys : List ℕ} {o : DimOrder shape.length} {layout : SpyreTensorLayout}

theorem arranged_genericStickDimOrder (shape : List ℕ) :
    arranged (genericStickDimOrder shape.length).toList shape = shape := by
  refine ext_getElem (by simp [arranged, DimOrder.toList, genericStickDimOrder])
    fun i h₁ h₂ => ?_
  simp [arranged, DimOrder.toList, genericStickDimOrder, h₂]

theorem arranged_array (a c : Option ℕ) (mid : List (Option ℕ)) (shape : List ℕ) :
    arranged (a :: (mid ++ [c])) shape = a.elim 1 (shape.getD · 0) ::
      ((mid.map fun d => d.elim 1 (shape.getD · 0)) ++ [c.elim 1 (shape.getD · 0)]) := by
  simp [arranged]

theorem arrangedCoords_array (a c : Option ℕ) (mid : List (Option ℕ)) (xs : List ℕ) :
    arrangedCoords (a :: (mid ++ [c])) xs = a.elim 0 (xs.getD · 0) ::
      ((mid.map fun d => d.elim 0 (xs.getD · 0)) ++ [c.elim 0 (xs.getD · 0)]) := by
  simp [arrangedCoords]

theorem arrangedCoords_lt (h : Forall₂ (· < ·) xs shape) :
    Forall₂ (· < ·) (arrangedCoords o.toList xs) (arranged o.toList shape) := by
  refine forall₂_map_left_iff.2 (forall₂_map_right_iff.2 (forall₂_same.2 fun d hd => ?_))
  cases d with
  | none => exact Nat.one_pos
  | some d =>
    have hd := DimOrder.some_mem_toList.1 hd
    have hget := h.get (i := d) (h.length_eq ▸ hd) hd
    simpa [hd, h.length_eq ▸ hd] using hget

/-- An order lists every coordinate. -/
theorem arrangedCoords_inj (h : xs.length = shape.length) (h' : xs'.length = shape.length)
    (heq : arrangedCoords o.toList xs = arrangedCoords o.toList xs') : xs = xs' := by
  refine ext_getElem (h.trans h'.symm) fun d hd hd' => ?_
  have hmem : some d ∈ o.toList := DimOrder.some_mem_toList.2 (h ▸ hd)
  have hsame := map_inj_left.1 heq (some d) hmem
  simpa [hd, hd'] using hsame

theorem exists_arrangedCoords (h : Forall₂ (· < ·) ys (arranged o.toList shape)) :
    ∃ xs, Forall₂ (· < ·) xs shape ∧ arrangedCoords o.toList xs = ys := by
  have hlen : ys.length = o.toList.length := by simpa [arranged] using h.length_eq
  have hget : ∀ i (hi : i < o.toList.length),
      ys.getD i 0 < (o.toList[i]).elim 1 (shape.getD · 0) := by
    intro i hi
    have := h.get (i := i) (hlen ▸ hi) (by simpa [arranged] using hi)
    simpa [arranged, hlen ▸ hi] using this
  refine ⟨(List.range shape.length).map fun d => ys.getD (o.toList.idxOf (some d)) 0, ?_, ?_⟩
  · refine forall₂_iff_get.2 ⟨by simp, fun d hd hd' => ?_⟩
    have hidx : o.toList.idxOf (some d) < o.toList.length :=
      idxOf_lt_length_of_mem (DimOrder.some_mem_toList.2 hd')
    simpa [hd'] using hget _ hidx
  · refine ext_getElem (by simp [arrangedCoords, hlen]) fun i h₁ h₂ => ?_
    have hi : i < o.toList.length := by simpa [arrangedCoords] using h₁
    have hi' := hget i hi
    simp only [arrangedCoords, getElem_map]
    cases hd : o.toList[i] with
    | none =>
      rw [hd, Option.elim_none, Nat.lt_one_iff] at hi'
      simpa [h₂] using hi'.symm
    | some d =>
      have hlt : d < shape.length := DimOrder.some_mem_toList.1 (hd ▸ getElem_mem hi)
      have hidx : o.toList.idxOf (some d) = i := by
        rw [← hd]
        exact (DimOrder.nodup_toList).idxOf_getElem i hi
      simp [hlt, hidx, h₂]

theorem length_computeHostStride (shape : List ℕ) :
    (computeHostStride shape).length = shape.length := by
  induction shape with
  | nil => rfl
  | cons n shape ih => rw [computeHostStride, length_cons, length_cons, ih]

theorem exists_layoutIn (hS : 0 < S) (o : DimOrder shape.length) :
    ∃ layout, layoutIn S shape o = .ok layout := by
  have horder : shape.length = o.toList.length ∨
      shape.length + 1 = o.toList.length ∧ o.toList.getLast? = some none := by
    have hdims : o.dims.length = shape.length := by simpa using o.perm.length_eq
    unfold DimOrder.toList
    cases o.sparse <;> simp [hdims]
  rw [layoutIn, SpyreTensorLayout.init]
  simp only [guardE, length_computeHostStride, if_true, if_pos hS, if_pos horder]
  by_cases hzero : shape.length = 0
  · exact ⟨_, by rw [if_pos hzero]; rfl⟩
  · exact ⟨_, by rw [if_neg hzero]; rfl⟩

theorem exists_layoutOf (hS : 0 < S) (shape : List ℕ) : ∃ layout, layoutOf S shape = .ok layout :=
  exists_layoutIn hS _

theorem sticksOf_one (hS : 0 < S) : sticksOf 1 S = 1 := by
  rw [sticksOf, Nat.add_sub_cancel_left, Nat.div_self hS]

theorem computeExtent_stick (hS : 0 < S) (shape : List ℕ) (c : Option ℕ) :
    SpyreTensorLayout.computeExtent shape S c c = sticksOf (c.elim 1 (shape.getD · 0)) S := by
  cases c with
  | none => exact (sticksOf_one hS).symm
  | some d => simp [SpyreTensorLayout.computeExtent, sticksOf]

theorem computeExtent_of_ne {c d : Option ℕ} (hdc : d ≠ c) (shape : List ℕ) (S : ℕ) :
    SpyreTensorLayout.computeExtent shape S c d = d.elim 1 (shape.getD · 0) := by
  cases d with
  | none => rfl
  | some d => simp [SpyreTensorLayout.computeExtent, Ne.symm hdc]

/-- A scalar has one stick. -/
theorem arranged_of_length_eq_zero (hzero : shape.length = 0) :
    arranged o.toList shape = [] ∨ arranged o.toList shape = [1] := by
  have hdims : o.dims = [] := by simpa [hzero] using o.perm
  unfold arranged DimOrder.toList
  cases o.sparse <;> simp [hdims]

/-- The device dimensions are those of the array the order makes of the shape. -/
theorem deviceSize_eq (hS : 0 < S) (h : layoutIn S shape o = .ok layout) :
    layout.deviceSize = stickSizes S (arranged o.toList shape) := by
  obtain ⟨_, -, h⟩ := bind_eq_ok_iff.1 h
  obtain ⟨_, -, h⟩ := bind_eq_ok_iff.1 h
  obtain ⟨_, -, h⟩ := bind_eq_ok_iff.1 h
  split_ifs at h with hzero
  · obtain rfl := Except.ok.inj h
    rcases arranged_of_length_eq_zero (o := o) hzero with harr | harr <;>
      simp [harr, stickSizes, rowLength, sticksOf_one hS]
  have hsize : layout.deviceSize = SpyreTensorLayout.deviceSizes shape S o.toList :=
    congrArg SpyreTensorLayout.deviceSize (Except.ok.inj h).symm
  have hnodup := o.nodup_toList
  rw [hsize, SpyreTensorLayout.deviceSizes]
  rcases ends_cases o.toList with hnil | ⟨c, hc⟩ | ⟨a, mid, c, hlist⟩
  · exact absurd hnil (o.toList_ne_nil (Nat.pos_of_ne_zero hzero))
  · simp [hc, arranged, stickSizes, rowLength, computeExtent_stick hS]
  · rw [hlist] at hnodup ⊢
    have hlast : (a :: (mid ++ [c])).getLastD none = c := by rw [← cons_append, getLastD_concat]
    obtain ⟨ha, hmid⟩ := nodup_cons.1 hnodup
    have hne : ∀ d ∈ mid, d ≠ c := fun d hd heq =>
      (nodup_append.1 hmid).2.2 d hd c (mem_singleton_self c) heq
    have hac : a ≠ c := fun heq => ha (by simp [heq])
    have hext : mid.map (SpyreTensorLayout.computeExtent shape S c) =
        mid.map fun d => d.elim 1 (shape.getD · 0) :=
      map_congr_left fun d hd => computeExtent_of_ne (hne d hd) shape S
    rw [arranged_array, stickSizes_array, hlast, tail_cons, headD_cons, map_append, map_singleton,
      hext, computeExtent_stick hS, computeExtent_of_ne hac]
    simp

theorem prod_dropLast_stickSizes (S : ℕ) (arr : List ℕ) :
    (stickSizes S arr).dropLast.prod = stickCount S arr := by
  rcases ends_cases arr with rfl | ⟨c, rfl⟩ | ⟨a, mid, c, rfl⟩
  · simp [stickSizes, stickCount, rowCount, leadingSize]
  · simp [stickSizes, stickCount, rowCount, leadingSize]
  · rw [stickSizes_array, stickCount, leadingSize_array, rowCount_array, rowLength_array]
    simp [Nat.mul_assoc]

/-- The coordinates, with `0` for the `-1` of a sparse order. -/
theorem deviceCoords_eq_elim {rank : ℕ} (o : DimOrder rank) (S : ℕ) (x : ℕ → ℕ) :
    deviceCoords o S x =
      (o.deviceDims.map fun d =>
        ((if o.stickDim = d then d.elim 0 x / S else d.elim 0 x : ℕ) : ℤ)) ++
        [((o.stickDim.elim 0 x % S : ℕ) : ℤ)] := by
  rw [deviceCoords]
  congr 1
  · refine map_congr_left fun d _ => ?_
    cases d <;> simp
  · cases o.stickDim <;> simp

/-- The place of an element is that of its coordinates in the order of the layout. -/
theorem devicePosition_eq_placeIn (hS : 0 < S) (h : layoutIn S shape o = .ok layout)
    (xs : List ℕ) : devicePosition o S layout (fun d => xs.getD d 0) =
      placeIn S (arranged o.toList shape) (arrangedCoords o.toList xs) := by
  have hnodup := o.nodup_toList
  rw [devicePosition, deviceSize_eq hS h, deviceCoords_eq_elim]
  rcases ends_cases o.toList with hnil | ⟨c, hc⟩ | ⟨a, mid, c, hlist⟩
  · have hdims : o.deviceDims = [none] := by rw [DimOrder.deviceDims, hnil]; rfl
    have hnone : o.stickDim = none := by rw [DimOrder.stickDim, hnil]; rfl
    rw [hdims, hnone, hnil]
    simp [arranged, arrangedCoords, stickSizes, placeIn, stickPlace, linearAddress, indexOf]
  · have hdims : o.deviceDims = [c] := by rw [DimOrder.deviceDims, hc]; rfl
    have hcs : o.stickDim = c := by rw [DimOrder.stickDim, hc]; rfl
    rw [hdims, hcs, hc]
    simp [arranged, arrangedCoords, stickSizes, placeIn, stickPlace, linearAddress, indexOf,
      leadingSize]
  · have hdims : o.deviceDims = mid ++ [c, a] := by rw [DimOrder.deviceDims, hlist]; simp
    have hcs : o.stickDim = c := by
      rw [DimOrder.stickDim, hlist, ← cons_append, getLastD_concat]
    rw [hlist] at hnodup
    obtain ⟨ha, hmid⟩ := nodup_cons.1 hnodup
    have hne : ∀ d ∈ mid, c ≠ d := fun d hd heq =>
      (nodup_append.1 hmid).2.2 d hd c (mem_singleton_self c) heq.symm
    have hac : c ≠ a := fun heq => ha (by simp [heq])
    have hmap : (mid.map fun d => ((if c = d then d.elim 0 (xs.getD · 0) / S
        else d.elim 0 (xs.getD · 0) : ℕ) : ℤ)) =
        (mid.map fun d => d.elim 0 (xs.getD · 0)).map fun n : ℕ => (n : ℤ) := by
      rw [map_map]
      exact map_congr_left fun d hd => by rw [if_neg (hne d hd)]; rfl
    rw [hdims, hcs, hlist, map_append, hmap, arranged_array, stickSizes_array, append_assoc,
      linearAddress_append (by simp), linearAddress_eq_indexOf, arrangedCoords_array, placeIn_array]
    simp only [map_cons, map_nil, if_true, if_neg hac, cons_append, nil_append, linearAddress,
      stickPlace, prod_cons, prod_nil]
    push_cast
    ring

theorem positionIn_eq (hS : 0 < S) (h : layoutIn S shape o = .ok layout) (k : ℕ) :
    positionIn S shape o layout k =
      placeIn S (arranged o.toList shape) (arrangedCoords o.toList (coordsOf shape k)) := by
  rw [positionIn, devicePosition_eq_placeIn hS h, Int.toNat_natCast]

theorem positionIn_injOn (hS : 0 < S) (h : layoutIn S shape o = .ok layout) :
    Set.InjOn (positionIn S shape o layout) (Set.Iio shape.prod) := by
  intro k hk k' hk' heq
  have hlt := coordsOf_lt hk
  have hlt' := coordsOf_lt hk'
  rw [positionIn_eq hS h, positionIn_eq hS h] at heq
  have hcoords := arrangedCoords_inj hlt.length_eq hlt'.length_eq
    (placeIn_inj hS (arrangedCoords_lt hlt) (arrangedCoords_lt hlt') heq)
  rw [← indexOf_coordsOf hk, hcoords, indexOf_coordsOf hk']

/-- The elements of a tensor are at the first places of each stick of the array that its order makes
of it. -/
theorem exists_positionIn_iff (hS : 0 < S) (h : layoutIn S shape o = .ok layout) {p : ℕ} :
    (∃ k < shape.prod, positionIn S shape o layout k = p) ↔
      p / S < stickCount S (arranged o.toList shape) ∧
        p % S < fillOf S (arranged o.toList shape) (p / S) := by
  rw [← exists_placeIn_iff hS]
  constructor
  · rintro ⟨k, hk, rfl⟩
    exact ⟨_, arrangedCoords_lt (coordsOf_lt hk), (positionIn_eq hS h k).symm⟩
  · rintro ⟨ys, hys, rfl⟩
    obtain ⟨xs, hxs, rfl⟩ := exists_arrangedCoords hys
    refine ⟨indexOf shape xs, indexOf_lt hxs, ?_⟩
    rw [positionIn_eq hS h, coordsOf_indexOf hxs]

theorem exists_position_iff (hS : 0 < S) (h : layoutOf S shape = .ok layout) {p : ℕ} :
    (∃ k < shape.prod, position S shape layout k = p) ↔
      p / S < stickCount S shape ∧ p % S < fillOf S shape (p / S) := by
  have hiff := exists_positionIn_iff hS h (p := p)
  rwa [arranged_genericStickDimOrder] at hiff

theorem prod_dropLast_deviceSize (hS : 0 < S) (h : layoutOf S shape = .ok layout) :
    layout.deviceSize.dropLast.prod = stickCount S shape := by
  rw [deviceSize_eq hS h, prod_dropLast_stickSizes, arranged_genericStickDimOrder]

end Layouts

/-! ## The resize -/

/-- What a data type says about storage : the elements and the bytes of a stick on the device, and
the bytes of an element on the host. -/
structure StorageFormat where
  elemsPerStick : ℕ
  stickBytes : ℕ
  itemsize : ℕ
  elemsPerStick_pos : 0 < elemsPerStick

variable {α : Type} {fmt : StorageFormat}

/-- A contiguous device tensor : its shape, where its layout has the elements, the bytes of its
storage and what the device holds, element by element. Any layout will do that has the elements at
different places. -/
structure DeviceTensor (fmt : StorageFormat) (α : Type) where
  size : List ℕ
  place : ℕ → ℕ
  nbytes : ℕ
  memory : ℕ → α
  place_injOn : Set.InjOn place (Set.Iio size.prod)

namespace DeviceTensor

/-- The element at place `k` in row-major order. -/
def element (t : DeviceTensor fmt α) (k : ℕ) : α :=
  t.memory (t.place k)

end DeviceTensor

/-- The device memory after a copy from the host. -/
def copyFrom (shape : List ℕ) (place : ℕ → ℕ) (host : ℕ → α) (memory : ℕ → α) : ℕ → α :=
  (List.range shape.prod).foldl
    (fun memory k => Function.update memory (place k) (host k)) memory

/-- The bytes a shape needs. -/
def sizeBytes (fmt : StorageFormat) (layout : SpyreTensorLayout) (size : List ℕ) : ℕ :=
  max (fmt.stickBytes * layout.deviceSize.dropLast.prod) (size.prod * fmt.itemsize)

/-- `last_dim_ok`. -/
def lastDimOk (size old : List ℕ) : Prop :=
  size = [] ∨ old = [] ∨ size.getLastD 1 ≤ old.getLastD 1

instance (size old : List ℕ) : Decidable (lastDimOk size old) :=
  inferInstanceAs (Decidable (_ ∨ _ ∨ _))

/-- The second and third case of `spyre_resize_`. New storage holds `fresh`, and the host pads a
larger tensor with `uninit`. -/
def resizeTo (self : DeviceTensor fmt α) (size : List ℕ) (newLayout : SpyreTensorLayout)
    (hlayout : layoutOf fmt.elemsPerStick size = .ok newLayout) (fresh uninit : ℕ → α) :
    DeviceTensor fmt α :=
  if sizeBytes fmt newLayout size ≤ self.nbytes ∧ size.prod ≤ self.size.prod ∧
      lastDimOk size self.size then
    { self with
      size := size
      place := position fmt.elemsPerStick size newLayout
      place_injOn := positionIn_injOn fmt.elemsPerStick_pos hlayout }
  else
    { size := size
      place := position fmt.elemsPerStick size newLayout
      nbytes := sizeBytes fmt newLayout size
      memory := copyFrom size (position fmt.elemsPerStick size newLayout)
        (fun k => if k < self.size.prod then self.element k else uninit k) fresh
      place_injOn := positionIn_injOn fmt.elemsPerStick_pos hlayout }

/-- `spyre_resize_`. -/
def spyreResize (self : DeviceTensor fmt α) (size : List ℕ) (fresh uninit : ℕ → α) :
    Except String (DeviceTensor fmt α) :=
  if self.size = size then .ok self
  else
    match hlayout : layoutOf fmt.elemsPerStick size with
    | .error e => .error e
    | .ok newLayout => .ok (resizeTo self size newLayout hlayout fresh uninit)

variable {shape size : List ℕ} {newLayout : SpyreTensorLayout} {S t : ℕ}

theorem spyreResize_of_ne {self : DeviceTensor fmt α} (hne : self.size ≠ size)
    (hlayout : layoutOf fmt.elemsPerStick size = .ok newLayout) (fresh uninit : ℕ → α) :
    spyreResize self size fresh uninit =
      .ok (resizeTo self size newLayout hlayout fresh uninit) := by
  rw [spyreResize, if_neg hne]
  split
  · rename_i e herror
    rw [hlayout] at herror
    cases herror
  · rename_i layout' hok
    obtain rfl := Except.ok.inj (hlayout.symm.trans hok)
    rfl

/-- A copy writes every element to its place. -/
theorem copyFrom_place {place : ℕ → ℕ} (hinj : Set.InjOn place (Set.Iio shape.prod))
    (host memory : ℕ → α) {k : ℕ} (hk : k < shape.prod) :
    copyFrom shape place host memory (place k) = host k := by
  suffices hrange : ∀ n ≤ shape.prod, k < n → (List.range n).foldl
      (fun memory k => Function.update memory (place k) (host k)) memory (place k) = host k from
    hrange _ le_rfl hk
  intro n
  induction n with
  | zero => exact fun _ hlt => absurd hlt (Nat.not_lt_zero k)
  | succ n ih =>
    intro hn hlt
    rw [range_succ, foldl_append, foldl_cons, foldl_nil]
    by_cases hkn : k = n
    · rw [hkn, update_self]
    · rw [update_of_ne fun heq => hkn (hinj hk hn heq)]
      exact ih (Nat.le_of_succ_le hn) (by omega)

/-- The resize keeps the bytes. -/
def InPlace (fmt : StorageFormat) (nbytes : ℕ) (size newSize : List ℕ) : Prop :=
  max (fmt.stickBytes * stickCount fmt.elemsPerStick newSize) (newSize.prod * fmt.itemsize) ≤
    nbytes ∧ newSize.prod ≤ size.prod ∧ lastDimOk newSize size

/-- Each place that a stick of the array uses holds one of the first `n` elements. -/
def Filled (S : ℕ) (arr : List ℕ) (n : ℕ) (place : ℕ → ℕ) : Prop :=
  ∀ t < stickCount S arr, ∀ j < fillOf S arr t, ∃ k < n, place k = t * S + j

section Cases

variable {self : DeviceTensor fmt α} {newSize : List ℕ} {newLayout : SpyreTensorLayout}
  {hlayout : layoutOf fmt.elemsPerStick newSize = .ok newLayout} {fresh uninit : ℕ → α}

theorem inPlace_iff (hlayout : layoutOf fmt.elemsPerStick newSize = .ok newLayout) :
    InPlace fmt self.nbytes self.size newSize ↔ sizeBytes fmt newLayout newSize ≤ self.nbytes ∧
      newSize.prod ≤ self.size.prod ∧ lastDimOk newSize self.size := by
  rw [InPlace, sizeBytes, prod_dropLast_deviceSize fmt.elemsPerStick_pos hlayout]

/-- In place, an element is what the device holds where the new layout has it. -/
theorem element_resizeTo_of_inPlace (h : InPlace fmt self.nbytes self.size newSize) (k : ℕ) :
    (resizeTo self newSize newLayout hlayout fresh uninit).element k =
      self.memory (position fmt.elemsPerStick newSize newLayout k) := by
  rw [resizeTo, if_pos ((inPlace_iff hlayout).1 h)]
  rfl

/-- Through the host, the elements keep their order. -/
theorem element_spyreResize_of_not_inPlace {resized : DeviceTensor fmt α}
    (hne : self.size ≠ newSize) (h : ¬ InPlace fmt self.nbytes self.size newSize)
    (hresize : spyreResize self newSize fresh uninit = .ok resized) {k : ℕ}
    (hk : k < min self.size.prod newSize.prod) : resized.element k = self.element k := by
  obtain ⟨newLayout, hlayout⟩ := exists_layoutOf fmt.elemsPerStick_pos newSize
  obtain ⟨hold, hnew⟩ := lt_min_iff.1 hk
  rw [spyreResize_of_ne hne hlayout] at hresize
  obtain rfl := Except.ok.inj hresize
  rw [resizeTo, if_neg fun hif => h ((inPlace_iff hlayout).2 hif), DeviceTensor.element]
  exact (copyFrom_place (positionIn_injOn fmt.elemsPerStick_pos hlayout) _ _ hnew).trans
    (if_pos hold)

end Cases

section Filled

variable {arr : List ℕ} {n j : ℕ} {place : ℕ → ℕ}

theorem fillOf_bounds (hS : 0 < S) (ht : t < stickCount S arr) :
    0 < fillOf S arr t ∧ fillOf S arr t ≤ S := by
  have hpos : 0 < rowCount arr * sticksOf (rowLength arr) S * leadingSize arr :=
    Nat.zero_lt_of_lt ht
  have hC : 0 < sticksOf (rowLength arr) S :=
    Nat.pos_of_mul_pos_left (Nat.pos_of_mul_pos_right hpos)
  have hlt := sub_one_mul_lt hS (pos_of_sticksOf_pos hS hC)
  have hle := le_sticksOf_mul (c := rowLength arr) hS
  have hsplit : sticksOf (rowLength arr) S * S = (sticksOf (rowLength arr) S - 1) * S + S := by
    rw [← Nat.succ_mul, Nat.succ_eq_add_one, Nat.sub_add_cancel hC]
  rw [fillOf, stickFill]
  split_ifs
  · omega
  · exact ⟨hS, le_rfl⟩

theorem div_mod_place (hS : 0 < S) (ht : t < stickCount S arr) (hj : j < fillOf S arr t) :
    (t * S + j) / S = t ∧ (t * S + j) % S = j := by
  have hlt := hj.trans_le (fillOf_bounds hS ht).2
  exact ⟨mul_add_div_of_lt hlt, Nat.mul_add_mod_of_lt hlt⟩

/-- The places of the sticks are those of the elements of the shape. -/
theorem filled_iff (hS : 0 < S) {newSize : List ℕ} (h : layoutOf S newSize = .ok newLayout) :
    Filled S newSize n place ↔
      ∀ k < newSize.prod, ∃ k' < n, place k' = position S newSize newLayout k := by
  constructor
  · intro hfilled k hk
    obtain ⟨hstick, hin⟩ := (exists_position_iff hS h).1 ⟨k, hk, rfl⟩
    obtain ⟨k', hk', heq⟩ := hfilled _ hstick _ hin
    exact ⟨k', hk', heq.trans (Nat.div_add_mod' _ _)⟩
  · intro hfound t ht j hj
    obtain ⟨hdiv, hmod⟩ := div_mod_place hS ht hj
    obtain ⟨k, hk, heq⟩ := (exists_position_iff hS h (p := t * S + j)).2
      ⟨hdiv.symm ▸ ht, by rwa [hdiv, hmod]⟩
    obtain ⟨k', hk', heq'⟩ := hfound k hk
    exact ⟨k', hk', heq'.trans heq⟩

/-- With a dimension order, the old layout must have as many elements in each stick. -/
theorem filled_iff_fillOf_le (hS : 0 < S) {o : DimOrder size.length} {layout : SpyreTensorLayout}
    (h : layoutIn S size o = .ok layout)
    (hplace : ∀ k < size.prod, place k = positionIn S size o layout k) :
    Filled S arr size.prod place ↔ ∀ t < stickCount S arr,
      t < stickCount S (arranged o.toList size) ∧
        fillOf S arr t ≤ fillOf S (arranged o.toList size) t := by
  have hfound : ∀ p, (∃ k < size.prod, place k = p) ↔
      p / S < stickCount S (arranged o.toList size) ∧
        p % S < fillOf S (arranged o.toList size) (p / S) := by
    intro p
    rw [← exists_positionIn_iff hS h]
    exact exists_congr fun k => and_congr_right fun hk => by rw [hplace k hk]
  refine forall₂_congr fun t ht => ?_
  have hpos := (fillOf_bounds hS ht).1
  constructor
  · intro hall
    have hmem : ∀ j < fillOf S arr t, t < stickCount S (arranged o.toList size) ∧
        j < fillOf S (arranged o.toList size) t := by
      intro j hj
      have hj' := (hfound _).1 (hall j hj)
      rwa [(div_mod_place hS ht hj).1, (div_mod_place hS ht hj).2] at hj'
    exact ⟨(hmem 0 hpos).1, le_of_forall_lt fun j hj => (hmem j hj).2⟩
  · rintro ⟨hstick, hle⟩ j hj
    refine (hfound _).2 ?_
    rw [(div_mod_place hS ht hj).1, (div_mod_place hS ht hj).2]
    exact ⟨hstick, hj.trans_le hle⟩

end Filled

/-- Where a place of the new shape is not filled, a tensor of one value reads another. -/
theorem exists_reads_unfilled [Nontrivial α] {nbytes : ℕ} {newSize : List ℕ} {place : ℕ → ℕ}
    (hplace : Set.InjOn place (Set.Iio size.prod)) (hne : size ≠ newSize)
    (hin : InPlace fmt nbytes size newSize)
    (hnot : ¬ Filled fmt.elemsPerStick newSize size.prod place) :
    ∃ (a : α) (self : DeviceTensor fmt α) (resized : DeviceTensor fmt α),
      self.size = size ∧ self.place = place ∧ self.nbytes = nbytes ∧
        (∀ k < size.prod, self.element k = a) ∧
          spyreResize self newSize (fun _ => a) (fun _ => a) = .ok resized ∧
            ∃ k < min size.prod newSize.prod, resized.element k ≠ a := by
  have hS := fmt.elemsPerStick_pos
  obtain ⟨newLayout, hnewLayout⟩ := exists_layoutOf hS newSize
  rw [filled_iff hS hnewLayout] at hnot
  push Not at hnot
  obtain ⟨k, hk, hout⟩ := hnot
  obtain ⟨a, b, hab⟩ := exists_pair_ne α
  -- a tensor of `a`s, with `b` at a place the old layout does not use
  let self : DeviceTensor fmt α :=
    { size := size
      place := place
      nbytes := nbytes
      memory := Function.update (fun _ => a) (position fmt.elemsPerStick newSize newLayout k) b
      place_injOn := hplace }
  refine ⟨a, self, _, rfl, rfl, rfl, fun k' hk' => ?_, spyreResize_of_ne hne hnewLayout _ _, k,
    lt_min_iff.2 ⟨hk.trans_le hin.2.1, hk⟩, ?_⟩
  · exact update_of_ne (hout k' hk') b fun _ => a
  · rw [element_resizeTo_of_inPlace hin]
    exact fun heq => hab (heq.symm.trans (update_self _ b fun _ => a))

/-- A resize of a tensor in any layout takes each element it keeps from a different element of the
old tensor, whatever the device holds elsewhere, exactly when it does nothing, goes through the
host, or the old layout fills the places that the new shape uses. For a layout with a dimension
order that is so when no stick of the new shape has more elements than the same stick of the old
one. Through the host the elements keep their order. -/
theorem spyreResize_keeps_iff [Nontrivial α] (fmt : StorageFormat) (nbytes : ℕ)
    (size newSize : List ℕ) {place : ℕ → ℕ} (hplace : Set.InjOn place (Set.Iio size.prod)) :
    ((∃ source : ℕ → ℕ, Set.InjOn source (Set.Iio (min size.prod newSize.prod)) ∧
        (∀ k < min size.prod newSize.prod, source k < size.prod) ∧
        ∀ (self : DeviceTensor fmt α) (host fresh uninit : ℕ → α) (resized : DeviceTensor fmt α),
          self.size = size → self.place = place → self.nbytes = nbytes →
          (∀ k < size.prod, self.element k = host k) →
          spyreResize self newSize fresh uninit = .ok resized →
          ∀ k < min size.prod newSize.prod, resized.element k = host (source k)) ↔
      (size ≠ newSize → InPlace fmt nbytes size newSize →
        Filled fmt.elemsPerStick newSize size.prod place)) ∧
    (∀ (o : DimOrder size.length) (layout : SpyreTensorLayout),
      layoutIn fmt.elemsPerStick size o = .ok layout →
      (∀ k < size.prod, place k = positionIn fmt.elemsPerStick size o layout k) →
      (Filled fmt.elemsPerStick newSize size.prod place ↔
        ∀ t < stickCount fmt.elemsPerStick newSize,
          t < stickCount fmt.elemsPerStick (arranged o.toList size) ∧
            fillOf fmt.elemsPerStick newSize t ≤
              fillOf fmt.elemsPerStick (arranged o.toList size) t)) ∧
    (size ≠ newSize → ¬ InPlace fmt nbytes size newSize →
      ∀ (self : DeviceTensor fmt α) (host fresh uninit : ℕ → α) (resized : DeviceTensor fmt α),
        self.size = size → self.nbytes = nbytes → (∀ k < size.prod, self.element k = host k) →
        spyreResize self newSize fresh uninit = .ok resized →
        ∀ k < min size.prod newSize.prod, resized.element k = host k) := by
  have hS := fmt.elemsPerStick_pos
  obtain ⟨newLayout, hnewLayout⟩ := exists_layoutOf hS newSize
  refine ⟨⟨?_, fun hcond => ?_⟩, fun o layout h hsame => filled_iff_fillOf_le hS h hsame, ?_⟩
  · rintro ⟨source, -, -, hsource⟩ hne hin
    by_contra hnot
    obtain ⟨a, self, resized, hsize, hself, hbytes, hall, hresize, k, hk, hother⟩ :=
      exists_reads_unfilled (α := α) hplace hne hin hnot
    exact hother (hsource self (fun _ => a) _ _ resized hsize hself hbytes hall hresize k hk)
  · by_cases hne : size = newSize
    · refine ⟨id, fun _ _ _ _ h => h, fun k hk => (lt_min_iff.1 hk).1, ?_⟩
      rintro self host fresh uninit resized rfl - rfl hhost hresize k hk
      rw [spyreResize, if_pos hne] at hresize
      obtain rfl := Except.ok.inj hresize
      exact hhost k (lt_min_iff.1 hk).1
    · by_cases hin : InPlace fmt nbytes size newSize
      · have hfound := (filled_iff hS hnewLayout).1 (hcond hne hin)
        choose! source hsource using hfound
        refine ⟨source, fun k hk k' hk' heq => ?_,
          fun k hk => (hsource k (lt_min_iff.1 hk).2).1, ?_⟩
        · have hk := (lt_min_iff.1 (Set.mem_Iio.1 hk)).2
          have hk' := (lt_min_iff.1 (Set.mem_Iio.1 hk')).2
          refine positionIn_injOn hS hnewLayout hk hk' ?_
          exact (hsource k hk).2.symm.trans ((congrArg place heq).trans (hsource k' hk').2)
        · rintro self host fresh uninit resized rfl rfl rfl hhost hresize k hk
          obtain ⟨hlt, heq⟩ := hsource k (lt_min_iff.1 hk).2
          rw [spyreResize_of_ne hne hnewLayout] at hresize
          obtain rfl := Except.ok.inj hresize
          rw [element_resizeTo_of_inPlace hin, ← heq]
          exact hhost _ hlt
      · refine ⟨id, fun _ _ _ _ h => h, fun k hk => (lt_min_iff.1 hk).1, ?_⟩
        rintro self host fresh uninit resized rfl - rfl hhost hresize k hk
        rw [element_spyreResize_of_not_inPlace hne hin hresize hk]
        exact hhost k (lt_min_iff.1 hk).1
  · rintro hne hin self host fresh uninit resized rfl rfl hhost hresize k hk
    rw [element_spyreResize_of_not_inPlace hne hin hresize hk, hhost k (lt_min_iff.1 hk).1]

/-- Half precision : sticks of `64` elements and `128` bytes. -/
def float16 : StorageFormat where
  elemsPerStick := 64
  stickBytes := 128
  itemsize := 2
  elemsPerStick_pos := by decide

/-- The layout of three rows of `100`. -/
def threeRowsLayout : SpyreTensorLayout :=
  ⟨[2, 3, 64], [64, 100, 1]⟩

/-- Three rows of `100`, all `false`. What is not part of a row is `true`. -/
def threeRows : DeviceTensor float16 Bool where
  size := [3, 100]
  place := position 64 [3, 100] threeRowsLayout
  nbytes := 768
  memory p := decide (36 ≤ p % 64 ∧ 192 ≤ p)
  place_injOn :=
    positionIn_injOn (S := 64) (by decide) (show _ = Except.ok threeRowsLayout from rfl)

/-- Four rows of `64` read the fourth stick as a whole. In the three rows it is the second stick of
the first row, of which `36` elements are filled. -/
theorem threeRows_reads_padding : (∀ k < 300, threeRows.element k = false) ∧
    ∃ resized, spyreResize threeRows [4, 64] (fun _ => false) (fun _ => false) = .ok resized ∧
      resized.size = [4, 64] ∧ resized.element 255 = true := by
  have hlayout : layoutOf float16.elemsPerStick [4, 64] = .ok ⟨[1, 4, 64], [64, 64, 1]⟩ := rfl
  have hplace : InPlace float16 threeRows.nbytes threeRows.size [4, 64] :=
    ⟨by decide, by decide, by decide⟩
  refine ⟨by decide +kernel, _, spyreResize_of_ne (by decide) hlayout _ _, rfl, ?_⟩
  rw [element_resizeTo_of_inPlace hplace]
  decide +kernel

/-- The order that lists the dimensions of a matrix backwards. -/
def columnsFirst : DimOrder 2 where
  dims := [1, 0]
  perm := by decide
  sparse := false

/-- Rows of `16` in sticks that run down the columns. Two rows of `8` are in places that the old
layout fills. -/
theorem spyreResize_keeps_iff_columns :
    ∃ layout, layoutIn float16.elemsPerStick [64, 16] columnsFirst = .ok layout ∧
      ∃ source : ℕ → ℕ, ∀ (self : DeviceTensor float16 Bool) (host fresh uninit : ℕ → Bool)
        (resized : DeviceTensor float16 Bool), self.size = [64, 16] →
        self.place = positionIn float16.elemsPerStick [64, 16] columnsFirst layout →
        self.nbytes = 2048 → (∀ k < 1024, self.element k = host k) →
        spyreResize self [2, 8] fresh uninit = .ok resized →
        ∀ k < 16, resized.element k = host (source k) := by
  obtain ⟨layout, hlayout⟩ : ∃ layout,
      layoutIn float16.elemsPerStick [64, 16] columnsFirst = .ok layout :=
    exists_layoutIn float16.elemsPerStick_pos _
  obtain ⟨hiff, horder, -⟩ := spyreResize_keeps_iff (α := Bool) float16 2048 [64, 16] [2, 8]
    (positionIn_injOn float16.elemsPerStick_pos hlayout)
  obtain ⟨source, -, -, h⟩ := hiff.2 fun _ _ =>
    (horder columnsFirst layout hlayout fun _ _ => rfl).2 (by decide)
  exact ⟨layout, hlayout, source, h⟩

end Transfer

end TorchSpyre
