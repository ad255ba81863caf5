import Mathlib
import TorchSpyre.Radix
import TorchSpyre.Alignment.Normalize

/-!
# Placing terms keeps the address

Breaking coordinates into terms replaces every dimension by one for each of its terms. The terms
of a dimension add up to its coordinate, because the constant is peeled in units of their
strides (`splitTerms_address`). Their sizes multiply to the size of the dimension if the strides
fill it (`splitTerms_volume`), and nothing in the code checks that when there are several. So the
address is kept for tensors that are `Packed` (`splitDims_eq_ok`).
-/

open List

namespace TorchSpyre

open Checked Radix

namespace Alignment

/-! ## Values -/

/-- The value of a term, in units of its stride. -/
def Term.value (pt : Var → ℕ) (t : Term) : ℕ :=
  (t.var.elim 0 fun v => pt v % t.mod / t.den) + t.offset

/-- The dimension of a term. -/
def Term.dim (pt : Var → ℕ) (t : Term) : ℕ × ℕ :=
  (t.dimSize, t.value pt)

@[simp] theorem Term.dim_fst (pt : Var → ℕ) (t : Term) : (t.dim pt).1 = t.dimSize := rfl

@[simp] theorem Term.dim_snd (pt : Var → ℕ) (t : Term) : (t.dim pt).2 = t.value pt := rfl

@[simp] theorem Term.dimSize_constant (size : ℕ) : (Term.constant size).dimSize = size := rfl

@[simp] theorem Term.dimSize_synthetic (k size offset : ℕ) :
    (Term.synthetic k size offset).dimSize = size := rfl

@[simp] theorem Term.value_constant (pt : Var → ℕ) (size : ℕ) :
    (Term.constant size).value pt = 0 := rfl

@[simp] theorem Term.value_synthetic (pt : Var → ℕ) (k size offset : ℕ) :
    (Term.synthetic k size offset).value pt = offset := by
  simp [Term.value, Term.synthetic, Nat.mod_one]

/-- The dimensions of a tensor at a point. -/
def Tensor.at (pt : Var → ℕ) (t : Tensor) : List (ℕ × ℕ) :=
  t.map fun d => (d.1, d.2.eval pt)

@[simp] theorem Tensor.at_cons (pt : Var → ℕ) (d : ℕ × Coordinate) (t : Tensor) :
    Tensor.at pt (d :: t) = (d.1, d.2.eval pt) :: Tensor.at pt t := rfl

/-- Parameters are positive, the coefficients of a coordinate divide each other, and its
variables are different ones of `n` loop variables. -/
structure Coordinate.Admitted (n : ℕ) (c : Coordinate) : Prop where
  lt : ∀ t ∈ c.terms, t.var < n
  pos : ∀ t ∈ c.terms, 0 < t.num ∧ 0 < t.den ∧ 0 < t.body.divisor
  chain : ∀ t ∈ c.terms, ∀ u ∈ c.terms, t.num ∣ u.num ∨ u.num ∣ t.num
  nodup : (c.terms.map CoordTerm.var).Nodup

section Points

variable {n : ℕ} {ranges : ℕ → ℕ} {pt : Var → ℕ}

theorem Body.eval_eq (b : Body) {x range : ℕ} (hx : x < range) :
    b.eval x = x % b.modulus range / b.divisor := by
  cases b with
  | var => simp [Body.eval, Body.modulus, Body.divisor, Nat.mod_eq_of_lt hx]
  | floorDiv d => simp [Body.eval, Body.modulus, Body.divisor, Nat.mod_eq_of_lt hx]
  | mod r => simp [Body.eval, Body.modulus, Body.divisor]
  | digit d r => rw [Body.eval, Body.modulus, Body.divisor, Nat.mod_mul_right_div_self]

variable {outermost stick : Bool} {c : Coordinate} {terms : List Term} {inner t : Term}
  {k k' residual size : ℕ} {d : ℕ × Coordinate}

theorem fromCoordinate_eq_ok {c : CoordTerm} (h : fromCoordinate ranges size c = .ok t) :
    t.num = c.num ∧ t.offset = 0 ∧ t.var = some (.loop c.var) := by
  unfold fromCoordinate at h
  split_ifs at h
  obtain rfl := Except.ok.inj h
  exact ⟨rfl, rfl, rfl⟩

/-- A term has the value of what it was made from. -/
theorem fromCoordinate_value {c : CoordTerm} (h : fromCoordinate ranges size c = .ok t)
    (hpt : pt (.loop c.var) < ranges c.var) :
    t.num * t.value pt = c.eval pt := by
  unfold fromCoordinate at h
  split_ifs at h with hunit
  obtain rfl := Except.ok.inj h
  rw [CoordTerm.eval, c.body.eval_eq hpt]
  simp only [Term.value, Option.elim_some, Nat.add_zero]
  rcases hunit with hone | hone
  · rw [hone, Nat.one_mul, Nat.one_mul, Nat.div_div_eq_div_mul, Nat.mul_comm]
  · rw [hone, Nat.one_mul, Nat.div_one]

/-! ## Placing the terms of a dimension -/

/-- Innermost first, every stride divides the next. -/
def Strides (terms : List Term) : Prop :=
  terms.IsChain fun t u => t.num ∣ u.num

/-- The terms and what is left of the constant add up to the coordinate. -/
theorem splitTerms_address (pt : Var → ℕ) (size : ℕ) :
    ∀ (cum : ℕ) (t : Term) (terms : List Term) (offset : ℕ), Strides (t :: terms) →
      (∀ u ∈ t :: terms, u.offset = 0) →
      address (((splitTerms size cum (t :: terms) offset).1.reverse).map (Term.dim pt)) * t.num +
          (splitTerms size cum (t :: terms) offset).2 =
        ((t :: terms).map fun u => u.num * u.value pt).sum + offset
  | cum, t, [], offset, _, hoff => by
    have hzero := hoff t mem_cons_self
    simp only [splitTerms, reverse_singleton, map_singleton, address_cons, volume_nil,
      address_nil, Term.dim_snd, Term.value, hzero, sum_singleton]
    have hdiv := Nat.div_add_mod offset t.num
    linarith
  | cum, t, u :: rest, offset, hchain, hoff => by
    obtain ⟨hdvd, hrest⟩ := isChain_cons_cons.mp hchain
    have hzero := hoff t mem_cons_self
    have ih := splitTerms_address pt size (cum * (u.num / t.num)) u rest offset hrest
      fun w hw => hoff w (mem_cons_of_mem t hw)
    set r := splitTerms size (cum * (u.num / t.num)) (u :: rest) offset with hr
    have hunits : (r.1.map fun w => ({ w with num := 1 } : Term)).reverse.map (Term.dim pt) =
        r.1.reverse.map (Term.dim pt) := by
      rw [← map_reverse, map_map]
      rfl
    simp only [splitTerms, ← hr, reverse_cons, map_append, map_singleton, hunits]
    rw [map_cons, sum_cons, Nat.add_assoc, ← ih, address_append]
    simp only [volume_cons, volume_nil, address_cons, address_nil, Term.dim_fst, Term.dim_snd,
      Term.value, hzero]
    obtain ⟨q, hq⟩ := hdvd
    have hdiv := Nat.div_add_mod r.2 t.num
    rcases Nat.eq_zero_or_pos t.num with hpos | hpos
    · simp [hq, hpos]
    · rw [hq, Nat.mul_div_cancel_left q hpos]
      linarith

/-- Strides that fill a dimension give its terms sizes that multiply to its own. -/
theorem splitTerms_volume (pt : Var → ℕ) (size : ℕ) :
    ∀ (cum : ℕ) (t : Term) (terms : List Term) (offset : ℕ), Strides (t :: terms) →
      (∀ u ∈ t :: terms, 0 < u.num) → (∀ u ∈ t :: terms, cum * (u.num / t.num) ∣ size) →
      volume (((splitTerms size cum (t :: terms) offset).1.reverse).map (Term.dim pt)) = size / cum
  | cum, t, [], offset, _, _, _ => by simp [splitTerms]
  | cum, t, u :: rest, offset, hchain, hpos, hfill => by
    obtain ⟨⟨q, hq⟩, hrest⟩ := isChain_cons_cons.mp hchain
    have ht := hpos t mem_cons_self
    have hu := hpos u (mem_cons_of_mem t mem_cons_self)
    have hratio : u.num / t.num = q := by rw [hq, Nat.mul_div_cancel_left q ht]
    have hdvd : ∀ w ∈ u :: rest, u.num ∣ w.num := by
      have hpair := (isChain_iff_pairwise (R := fun t u : Term => t.num ∣ u.num)).mp hrest
      intro w hw
      rcases mem_cons.mp hw with rfl | hw
      · exact dvd_rfl
      · exact (pairwise_cons.mp hpair).1 w hw
    have ih := splitTerms_volume pt size (cum * (u.num / t.num)) u rest offset hrest
      (fun w hw => hpos w (mem_cons_of_mem t hw)) fun w hw => by
        obtain ⟨p, hp⟩ := hdvd w hw
        have hw := hfill w (mem_cons_of_mem t hw)
        rw [hratio, hp, Nat.mul_div_cancel_left p hu, Nat.mul_assoc]
        rwa [hp, hq, Nat.mul_assoc, Nat.mul_div_cancel_left _ ht] at hw
    have hsize := hfill u (mem_cons_of_mem t mem_cons_self)
    set r := splitTerms size (cum * (u.num / t.num)) (u :: rest) offset with hr
    have hunits : (r.1.map fun w => ({ w with num := 1 } : Term)).reverse.map (Term.dim pt) =
        r.1.reverse.map (Term.dim pt) := by
      rw [← map_reverse, map_map]
      rfl
    simp only [splitTerms, ← hr, reverse_cons, map_append, map_singleton, hunits]
    rw [volume_append, ih, volume_cons, volume_nil, Nat.mul_one, Term.dim_fst, hratio]
    rw [hratio] at hsize
    obtain ⟨m, rfl⟩ := hsize
    have hqpos : 0 < q := Nat.pos_of_mul_pos_left (hq ▸ hu)
    rcases Nat.eq_zero_or_pos cum with rfl | hcum
    · simp
    · rw [Nat.mul_div_cancel_left m (Nat.mul_pos hcum hqpos), Nat.mul_assoc,
        Nat.mul_div_cancel_left _ hcum, Nat.mul_comm]

/-- The first term keeps its stride. -/
theorem splitTerms_cons (size cum : ℕ) (t : Term) (terms : List Term) (offset : ℕ) :
    ∃ inner others, (splitTerms size cum (t :: terms) offset).1 = inner :: others ∧
      inner.num = t.num ∧ (others = [] ↔ terms = []) ∧
        (terms = [] → inner.dimSize = size / cum) := by
  cases terms with
  | nil => exact ⟨_, [], rfl, rfl, by simp, fun _ => rfl⟩
  | cons u rest =>
    refine ⟨_, _, rfl, rfl, ?_, fun h => absurd h (cons_ne_nil u rest)⟩
    cases rest <;> simp [splitTerms]

/-! ## One dimension -/

/-- The strides of a dimension fill it : there is one term, or the coefficients divide the size
and one of them is one. -/
def Filled (size : ℕ) (c : Coordinate) : Prop :=
  c.terms.length ≤ 1 ∨ (∃ t ∈ c.terms, t.num = 1) ∧ ∀ t ∈ c.terms, t.num ∣ size

/-- A coordinate without a stride. -/
def Coordinate.Unit (c : Coordinate) : Prop :=
  c.terms = [] ∨ ∃ t ∈ c.terms, t.num = 1

/-- The terms of a coordinate, innermost first. -/
structure Placed (c : Coordinate) (terms : List Term) : Prop where
  ne : terms ≠ []
  length : terms.length = c.terms.length
  offset : ∀ t ∈ terms, t.offset = 0
  loop : ∀ t ∈ terms, ∃ x ∈ c.terms, t.var = some (.loop x.var)
  num : ∀ n, (∃ t ∈ terms, t.num = n) ↔ ∃ t ∈ c.terms, t.num = n
  strides : Strides terms
  least : ∀ t ∈ terms.head?, ∀ u ∈ terms, t.num ≤ u.num

theorem placed_insertionSort (hc : c.Admitted n) (hne : c.terms ≠ [])
    (h : mapE (fromCoordinate ranges size) c.terms = .ok terms) :
    Placed c (terms.insertionSort Term.Before) := by
  have hperm := perm_insertionSort Term.Before terms
  have hnums : terms.map Term.num = c.terms.map CoordTerm.num :=
    map_eq_of_mapE h fun x _ y hy => (fromCoordinate_eq_ok hy).1
  have hlen : terms.length = c.terms.length := by simpa using congrArg List.length hnums
  have hnum : ∀ n, (∃ t ∈ terms, t.num = n) ↔ ∃ t ∈ c.terms, t.num = n := by
    intro n
    have := congrArg (n ∈ ·) hnums
    simpa using this
  have hfrom : ∀ t ∈ terms.insertionSort Term.Before,
      ∃ x ∈ c.terms, fromCoordinate ranges size x = .ok t := fun t ht =>
    mem_of_mapE h (hperm.mem_iff.mp ht)
  have htotal : Std.Total Term.Before := ⟨fun t u => by unfold Term.Before; omega⟩
  have htrans : IsTrans Term Term.Before := ⟨fun t u w => by unfold Term.Before; omega⟩
  have hsorted := List.pairwise_insertionSort Term.Before terms
  refine ⟨fun hnil => hne ?_, by rw [hperm.length_eq, hlen], fun t ht => ?_, fun t ht => ?_,
    fun n => ?_, ?_, ?_⟩
  · rw [hnil] at hperm
    rw [← length_eq_zero_iff, ← hlen, ← hperm.length_eq, length_nil]
  · obtain ⟨x, -, hx⟩ := hfrom t ht
    exact (fromCoordinate_eq_ok hx).2.1
  · obtain ⟨x, hmem, hx⟩ := hfrom t ht
    exact ⟨x, hmem, (fromCoordinate_eq_ok hx).2.2⟩
  · rw [← hnum n]
    simp only [hperm.mem_iff]
  · -- A smaller coefficient divides a larger one.
    refine (hsorted.imp_of_mem fun {t u} ht hu htu => ?_).isChain
    obtain ⟨x, hx, hxt⟩ := (hnum t.num).mp ⟨t, hperm.mem_iff.mp ht, rfl⟩
    obtain ⟨y, hy, hyu⟩ := (hnum u.num).mp ⟨u, hperm.mem_iff.mp hu, rfl⟩
    have hle : t.num ≤ u.num := by
      unfold Term.Before at htu
      omega
    rcases hc.chain x hx y hy with hdvd | hdvd
    · rwa [hxt, hyu] at hdvd
    · have hpos := (hc.pos x hx).1
      rw [hxt, hyu] at hdvd
      rw [hxt] at hpos
      exact dvd_of_eq (le_antisymm hle (Nat.le_of_dvd hpos hdvd))
  · intro t ht u hu
    cases hl : terms.insertionSort Term.Before with
    | nil => simp [hl] at hu
    | cons w rest =>
      rw [hl] at ht hu hsorted
      obtain rfl : w = t := by simpa using ht
      rcases mem_cons.mp hu with rfl | hu
      · exact le_rfl
      · have := (pairwise_cons.mp hsorted).1 u hu
        unfold Term.Before at this
        omega

/-- Placing does not change the sum of the terms. -/
theorem sum_insertionSort (hpt : ∀ t ∈ c.terms, pt (.loop t.var) < ranges t.var)
    (h : mapE (fromCoordinate ranges size) c.terms = .ok terms) :
    ((terms.insertionSort Term.Before).map fun t => t.num * t.value pt).sum =
      (c.terms.map (CoordTerm.eval pt)).sum := by
  have hvals := map_eq_of_mapE (g := fun t : Term => t.num * t.value pt) h
    fun x hx y hy => fromCoordinate_value hy (hpt x hx)
  rw [← hvals]
  exact ((perm_insertionSort Term.Before terms).map _).sum_eq

section Head

variable {c : Coordinate} {t : Term} {rest : List Term}

theorem Placed.pos (h : Placed c (t :: rest)) (hc : c.Admitted n) : ∀ u ∈ t :: rest, 0 < u.num := by
  intro u hu
  obtain ⟨x, hx, hxu⟩ := (h.num u.num).mp ⟨u, hu, rfl⟩
  exact hxu ▸ (hc.pos x hx).1

/-- A coefficient of one is the innermost. -/
theorem Placed.head_num (h : Placed c (t :: rest)) (hc : c.Admitted n)
    (hone : ∃ x ∈ c.terms, x.num = 1) : t.num = 1 := by
  obtain ⟨u, hu, hone⟩ := (h.num 1).mpr hone
  have hle := h.least t rfl u hu
  have := h.pos hc t mem_cons_self
  omega

/-- Where no gap is realized the innermost term has no stride. -/
theorem Placed.head_num_of_not_gap (h : Placed c (t :: rest)) (hc : c.Admitted n) {stick : Bool}
    (hunit : stick = true → c.Unit) (hgap : ¬(1 < t.num ∧ stick = false)) : t.num = 1 := by
  by_cases hs : stick = true
  · refine h.head_num hc ((hunit hs).resolve_left fun hnone => ?_)
    have := h.length
    rw [hnone] at this
    simp at this
  · have := h.pos hc t mem_cons_self
    have hle : ¬1 < t.num := fun hlt => hgap ⟨hlt, by simpa using hs⟩
    omega

end Head

/-- Changing the size of the innermost dimension matters to those outside it only. -/
theorem innerSize_address {others : List Term}
    (h : innerSize ranges outermost c residual inner others = .ok size) :
    address ((({ inner with num := 1, dimSize := size } : Term) :: others).reverse.map
        (Term.dim pt)) = address ((inner :: others).reverse.map (Term.dim pt)) := by
  unfold innerSize at h
  split_ifs at h with hnil
  · subst hnil
    simp [Term.value]
  · obtain rfl := Except.ok.inj h
    simp only [reverse_cons, map_append, address_append]
    rfl

theorem stridedSize_eq_ok {n : ℕ} (h : stridedSize ranges outermost c n residual inner = .ok size) :
    outermost = true ∨ size * inner.num = n := by
  unfold stridedSize at h
  dsimp only at h
  split_ifs at h with hdvd
  · obtain rfl := Except.ok.inj h
    exact Or.inr (Nat.div_mul_cancel (Nat.dvd_of_mod_eq_zero hdvd))
  · split at h
    · split_ifs at h with hc
      exact Or.inl hc.1
    · cases h

/-- What `realizeGap` makes of the terms of a dimension. -/
theorem realizeGap_cases {placed : List Term} (hne : placed ≠ [])
    (h : realizeGap ranges outermost stick d.2 k (splitTerms d.1 1 placed d.2.offset) =
      .ok (terms, k')) :
    ∃ t rest inner others residual, placed = t :: rest ∧
      splitTerms d.1 1 placed d.2.offset = (inner :: others, residual) ∧ inner.num = t.num ∧
      (others = [] ↔ rest = []) ∧ (rest = [] → inner.dimSize = d.1 / 1) ∧
      ((∃ size, innerSize ranges outermost d.2 residual inner others = .ok size ∧
          (1 < inner.num ∧ stick = false) ∧ k' = k + 1 ∧
          terms = ({ inner with num := 1, dimSize := size } :: others).reverse ++
            [Term.synthetic k inner.num residual]) ∨
        (¬(1 < inner.num ∧ stick = false) ∧ residual = 0 ∧ k' = k ∧
          terms = (inner :: others).reverse)) := by
  obtain ⟨t, rest, rfl⟩ := exists_cons_of_ne_nil hne
  obtain ⟨inner, others, hsplit, hnum, hnil, hsize⟩ := splitTerms_cons d.1 1 t rest d.2.offset
  obtain ⟨residual, hres⟩ : ∃ r, splitTerms d.1 1 (t :: rest) d.2.offset = (inner :: others, r) :=
    ⟨_, Prod.ext hsplit rfl⟩
  refine ⟨t, rest, inner, others, residual, rfl, hres, hnum, hnil, hsize, ?_⟩
  rw [hres] at h
  unfold realizeGap at h
  dsimp only at h
  split_ifs at h with hgap hzero
  · obtain ⟨size, hinner, h⟩ := bind_eq_ok_iff.mp h
    obtain ⟨rfl, rfl⟩ := Prod.mk.inj (Except.ok.inj h)
    exact Or.inl ⟨size, hinner, hgap, rfl, rfl⟩
  · obtain ⟨rfl, rfl⟩ := Prod.mk.inj (Except.ok.inj h)
    exact Or.inr ⟨hgap, not_not.mp hzero, rfl, rfl⟩

/-- The terms of a dimension add up to its coordinate, and fill it unless it is outermost. -/
theorem realizeGap_eq_ok {placed : List Term} (hplaced : Placed d.2 placed) (hc : d.2.Admitted n)
    (hsum : (placed.map fun t => t.num * t.value pt).sum = (d.2.terms.map (CoordTerm.eval pt)).sum)
    (hunit : stick = true → d.2.Unit)
    (h : realizeGap ranges outermost stick d.2 k (splitTerms d.1 1 placed d.2.offset) =
      .ok (terms, k')) :
    address (terms.map (Term.dim pt)) = d.2.eval pt ∧
      (Filled d.1 d.2 → outermost = true ∨ volume (terms.map (Term.dim pt)) = d.1) := by
  obtain ⟨t, rest, inner, others, residual, rfl, hsplit, hnum, hnil, hsize, hcases⟩ :=
    realizeGap_cases hplaced.ne h
  have hpos := hplaced.pos hc
  have haddr := splitTerms_address pt d.1 1 t rest d.2.offset hplaced.strides hplaced.offset
  have hvol := splitTerms_volume pt d.1 1 t rest d.2.offset hplaced.strides hpos
  rw [hsum, Nat.add_comm (List.sum _), hsplit] at haddr
  rw [hsplit] at hvol
  dsimp only at haddr hvol
  -- A single term fills the dimension, and so do strides that divide it.
  have hfill : Filled d.1 d.2 → t.num = 1 ∨ rest ≠ [] →
      volume ((inner :: others).reverse.map (Term.dim pt)) = d.1 ∧ t.num = 1 := by
    intro hf hcase
    have htone : t.num = 1 := by
      rcases hcase with ht | hrest
      · exact ht
      · refine hplaced.head_num hc (hf.resolve_left fun hlen => ?_).1
        rw [← hplaced.length] at hlen
        cases rest with
        | nil => exact hrest rfl
        | cons u rest => simp at hlen
    refine ⟨(hvol fun u hu => ?_).trans (Nat.div_one _), htone⟩
    rw [htone, Nat.div_one, Nat.one_mul]
    rcases hf with hlen | ⟨-, hall⟩
    · rw [← hplaced.length] at hlen
      have hnil : rest = [] := length_eq_zero_iff.mp (by simpa using hlen)
      obtain rfl := mem_singleton.mp (hnil ▸ hu)
      rw [htone]
      exact one_dvd _
    · obtain ⟨x, hx, hxu⟩ := (hplaced.num u.num).mp ⟨u, hu, rfl⟩
      exact hxu ▸ hall x hx
  rcases hcases with ⟨size, hinner, hgap, -, rfl⟩ | ⟨hgap, hres, -, rfl⟩
  · rw [map_append, address_append, innerSize_address hinner, volume_append]
    refine ⟨?_, fun hf => ?_⟩
    · simpa [hnum, Coordinate.eval] using haddr
    · by_cases hrest : rest = []
      · have hothers := hnil.mpr hrest
        subst hothers
        rw [innerSize, if_pos rfl, hsize hrest, Nat.div_one] at hinner
        exact (stridedSize_eq_ok hinner).imp_right fun hmul => by simpa using hmul
      · have := (hfill hf (Or.inr hrest)).2
        omega
  · have htone := hplaced.head_num_of_not_gap hc hunit (hnum ▸ hgap)
    refine ⟨?_, fun hf => Or.inr (hfill hf (Or.inl htone)).1⟩
    rw [htone, Nat.mul_one] at haddr
    rw [Coordinate.eval]
    omega

/-- What `splitDim` makes of a dimension. -/
theorem splitDim_eq_ok (hc : d.2.Admitted n)
    (hpt : ∀ t ∈ d.2.terms, pt (.loop t.var) < ranges t.var) (hunit : stick = true → d.2.Unit)
    (h : splitDim ranges outermost stick d k = .ok (terms, k')) :
    address (terms.map (Term.dim pt)) = d.2.eval pt ∧
      (Filled d.1 d.2 → outermost = true ∨ volume (terms.map (Term.dim pt)) = d.1) := by
  unfold splitDim at h
  split_ifs at h with hnil hwide hzero
  · obtain ⟨rfl, -⟩ := Prod.mk.inj (Except.ok.inj h)
    simp [Coordinate.eval, hnil]
  · obtain ⟨rfl, -⟩ := Prod.mk.inj (Except.ok.inj h)
    simp [Coordinate.eval, hnil, hzero]
  · obtain ⟨placed, hplaced, h⟩ := bind_eq_ok_iff.mp h
    exact realizeGap_eq_ok (placed_insertionSort hc hnil hplaced) hc
      (sum_insertionSort hpt hplaced) hunit h

/-! ## All dimensions -/

/-- Every dimension is filled, unless all dimensions outside it have size one. The stick has no
stride. -/
def Packed : Bool → Tensor → Prop
  | _, [] => True
  | outermost, d :: dims => (outermost = true ∨ Filled d.1 d.2) ∧ (dims = [] → d.2.Unit) ∧
      Packed (outermost && d.1 = 1) dims

/-- The terms of a packed tensor have its address. -/
theorem splitDims_eq_ok :
    ∀ {outermost : Bool} {k k' : ℕ} {tensor : Tensor} {terms : List Term},
      splitDims ranges outermost k tensor = .ok (terms, k') → Packed outermost tensor →
      (∀ d ∈ tensor, d.2.Admitted n) →
      (∀ d ∈ tensor, ∀ t ∈ d.2.terms, pt (.loop t.var) < ranges t.var) →
      (∀ d ∈ tensor, d.2.eval pt < d.1) →
      address (terms.map (Term.dim pt)) = address (tensor.at pt) ∧
        (outermost = false → volume (terms.map (Term.dim pt)) = volume (tensor.at pt))
  | _, _, _, [], _, h, _, _, _, _ => by
    obtain ⟨rfl, -⟩ := Prod.mk.inj (Except.ok.inj h)
    simp [Tensor.at]
  | outermost, k, _, d :: dims, _, h, hpacked, hadm, hpt, hin => by
    obtain ⟨hfill, hunit, hrest⟩ := hpacked
    obtain ⟨r, hr, h⟩ := bind_eq_ok_iff.mp h
    obtain ⟨rest, hsplit, h⟩ := bind_eq_ok_iff.mp h
    obtain ⟨rfl, -⟩ := Prod.mk.inj (Except.ok.inj h)
    obtain ⟨haddr, hvol⟩ := splitDim_eq_ok (hadm d mem_cons_self) (hpt d mem_cons_self)
      (fun hs => hunit (List.isEmpty_iff.mp hs)) hr
    obtain ⟨ihaddr, ihvol⟩ := splitDims_eq_ok hsplit hrest
      (fun e he => hadm e (mem_cons_of_mem d he))
      (fun e he => hpt e (mem_cons_of_mem d he)) fun e he => hin e (mem_cons_of_mem d he)
    have hlt := hin d mem_cons_self
    rw [map_append, address_append, volume_append, haddr, ihaddr]
    refine ⟨?_, fun hinner => ?_⟩
    · rw [Tensor.at_cons, address_cons]
      by_cases hone : d.1 = 1
      · have hzero : d.2.eval pt = 0 := by omega
        rw [hzero, Nat.zero_mul, Nat.zero_mul]
      · rw [ihvol (by simp [hone])]
    · have hd := (hvol (hfill.resolve_left (by simp [hinner]))).resolve_left (by simp [hinner])
      rw [hd, ihvol (by simp [hinner]), Tensor.at_cons, volume_cons]

end Points

end Alignment

end TorchSpyre
