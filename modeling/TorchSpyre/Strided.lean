import Mathlib

/-!
# Sizes, weights and linear addresses

A list of dimensions, outermost first, each with a size. The weight of a dimension is the
product of the sizes after it, so it is the distance in memory between two neighbours along
it. The same notion gives the strides of a dense tensor, whose dimensions are listed in the
order of its storage, and the device distances of a layout, whose dimensions are listed in
the order of the device.

Two different dimensions of a list are told apart by their weights : what one of them spans
divides the weight of the other (`span_dvd_weight`). A linear address is the sum of the
coordinates times the weights (`linearAddress_map`).
-/

open List

namespace Strided

variable {α : Type*} [DecidableEq α]

/-- The product of the sizes of the dimensions after `a`. -/
def weight (size : α → ℕ) : List α → α → ℕ
  | [], _ => 1
  | b :: l, a => if a = b then (l.map size).prod else weight size l a

theorem weight_cons_self (size : α → ℕ) (l : List α) (a : α) :
    weight size (a :: l) a = (l.map size).prod :=
  if_pos rfl

variable {l : List α} {a b : α} {size : α → ℕ}

theorem weight_cons_of_ne (size : α → ℕ) (l : List α) (h : a ≠ b) :
    weight size (b :: l) a = weight size l a :=
  if_neg h

omit [DecidableEq α] in
theorem prod_pos (hpos : ∀ a ∈ l, 0 < size a) :
    0 < (l.map size).prod :=
  List.prod_pos (by simpa using hpos)

theorem weight_pos (hpos : ∀ a ∈ l, 0 < size a) (a : α) :
    0 < weight size l a := by
  induction l with
  | nil => exact Nat.one_pos
  | cons b l ih =>
    have hl : ∀ a ∈ l, 0 < size a := fun a ha => hpos a (mem_cons_of_mem b ha)
    unfold weight
    split_ifs
    · exact prod_pos hl
    · exact ih hl

/-- What a dimension spans divides the product of all sizes. -/
theorem span_dvd_prod (size : α → ℕ) (ha : a ∈ l) :
    size a * weight size l a ∣ (l.map size).prod := by
  induction l with
  | nil => simp at ha
  | cons b l ih =>
    rw [map_cons, prod_cons]
    by_cases hab : a = b
    · rw [hab, weight_cons_self]
    · rw [weight_cons_of_ne size l hab]
      exact Dvd.dvd.mul_left (ih (mem_of_ne_of_mem hab ha)) (size b)

/-- What one of two dimensions spans divides the weight of the other. -/
theorem span_dvd_weight (size : α → ℕ) (ha : a ∈ l) (hb : b ∈ l) (hab : a ≠ b) :
    size a * weight size l a ∣ weight size l b ∨ size b * weight size l b ∣ weight size l a := by
  induction l with
  | nil => simp at ha
  | cons c l ih =>
    by_cases hac : a = c
    · have hbc : b ≠ c := fun h => hab (hac.trans h.symm)
      rw [hac, weight_cons_self, weight_cons_of_ne size l hbc]
      exact Or.inr (span_dvd_prod size (mem_of_ne_of_mem hbc hb))
    · by_cases hbc : b = c
      · rw [hbc, weight_cons_self, weight_cons_of_ne size l hac]
        exact Or.inl (span_dvd_prod size (mem_of_ne_of_mem hac ha))
      · rw [weight_cons_of_ne size l hac, weight_cons_of_ne size l hbc]
        exact ih (mem_of_ne_of_mem hac ha) (mem_of_ne_of_mem hbc hb)

/-- The weights do not grow along the list. -/
theorem pairwise_weight (hl : l.Nodup) (hpos : ∀ a ∈ l, 0 < size a) :
    l.Pairwise fun a b => weight size l b ≤ weight size l a := by
  induction l with
  | nil => exact .nil
  | cons a l ih =>
    obtain ⟨ha, hl⟩ := nodup_cons.mp hl
    have hposl : ∀ b ∈ l, 0 < size b := fun b hb => hpos b (mem_cons_of_mem a hb)
    have hne : ∀ b ∈ l, b ≠ a := fun b hb h => ha (h ▸ hb)
    refine pairwise_cons.mpr ⟨fun b hb => ?_, ?_⟩
    · rw [weight_cons_self, weight_cons_of_ne size l (hne b hb)]
      exact (Nat.le_mul_of_pos_left _ (hposl b hb)).trans
        (Nat.le_of_dvd (prod_pos hposl) (span_dvd_prod size hb))
    · refine (ih hl hposl).imp_of_mem fun {b c} hb hc h => ?_
      rwa [weight_cons_of_ne size l (hne b hb), weight_cons_of_ne size l (hne c hc)]

/-- Along the list, a weight is the product of what is left of the sizes. -/
theorem prod_drop_eq_weight (size : α → ℕ) (hl : l.Nodup) {i : ℕ} (hi : l[i]? = some a) :
    ((l.drop (i + 1)).map size).prod = weight size l a := by
  induction l generalizing i with
  | nil => simp at hi
  | cons b l ih =>
    obtain ⟨hb, hl⟩ := nodup_cons.mp hl
    cases i with
    | zero =>
      obtain rfl : b = a := by simpa using hi
      rw [weight_cons_self, drop_succ_cons, drop_zero]
    | succ i =>
      have hi : l[i]? = some a := by simpa using hi
      have hab : a ≠ b := fun h => hb (h ▸ mem_of_getElem? hi)
      rw [weight_cons_of_ne size l hab, drop_succ_cons, ih hl hi]

/-- The innermost dimension that is not of size one has weight one. -/
theorem exists_weight_eq_one (hl : l.Nodup) (h : ∃ a ∈ l, size a ≠ 1) :
    ∃ a ∈ l, size a ≠ 1 ∧ weight size l a = 1 := by
  induction l with
  | nil => simp at h
  | cons b l ih =>
    obtain ⟨hb, hl⟩ := nodup_cons.mp hl
    by_cases hin : ∃ a ∈ l, size a ≠ 1
    · obtain ⟨a, ha, hsize, hone⟩ := ih hl hin
      have hab : a ≠ b := fun h => hb (h ▸ ha)
      exact ⟨a, mem_cons_of_mem b ha, hsize, (weight_cons_of_ne size l hab).trans hone⟩
    · push Not at hin
      obtain ⟨a, ha, hsize⟩ := h
      obtain rfl : a = b := by
        rcases mem_cons.mp ha with hab | ha
        · exact hab
        · exact absurd (hin a ha) hsize
      refine ⟨a, ha, hsize, ?_⟩
      rw [weight_cons_self]
      exact prod_eq_one (by simpa using hin)

/-! ## Positions cut into blocks

A position is cut into blocks of `S`, and a block is `R` times as far from the next one as its
`S` positions need. A sum of steps is then mapped to the sum of what the steps are mapped to
only if no step leaves a block half way. -/

section Blocks

variable {ι : Type*} {R S : ℕ}

/-- Where a position lies when blocks of `S` are `R * S` apart. -/
def spread (R S x : ℕ) : ℕ :=
  x / S * (R * S) + x % S

theorem spread_one (x : ℕ) : spread 1 S x = x := by
  rw [spread, one_mul, Nat.div_add_mod']

variable {x : ℕ}

/-- Whole blocks are `R` times as far, and what is left stays. -/
theorem spread_add {y : ℕ} (hS : 0 < S) (hx : S ∣ x) (hy : y < S) :
    spread R S (x + y) = R * x + y := by
  obtain ⟨q, rfl⟩ := hx
  rw [spread, Nat.mul_add_div hS, Nat.mul_add_mod, Nat.div_eq_of_lt hy, Nat.mod_eq_of_lt hy]
  ring

/-- A position is mapped to `R` times itself only at a block boundary. -/
theorem dvd_of_spread_eq_mul (hR : R ≠ 1) (h : spread R S x = R * x) : S ∣ x := by
  have hx : R * x = x / S * (R * S) + R * (x % S) := by
    conv_lhs => rw [← Nat.div_add_mod' x S]
    ring
  rw [spread, hx, Nat.add_left_cancel_iff] at h
  rcases Nat.eq_zero_or_pos (x % S) with hzero | hpos
  · exact Nat.dvd_of_mod_eq_zero hzero
  · exact absurd (Nat.eq_of_mul_eq_mul_right hpos (by omega)) hR

/-- A position is mapped to itself only in the first block. -/
theorem lt_of_spread_eq (hS : 0 < S) (hR : 1 < R) (h : spread R S x = x) : x < S := by
  have hx : x = x / S * S + x % S := (Nat.div_add_mod' x S).symm
  have heq : x / S * (R * S) = x / S * S := by
    have := h
    rw [spread] at this
    omega
  rcases Nat.eq_zero_or_pos (x / S) with hzero | hpos
  · exact (Nat.div_eq_zero_iff_lt hS).mp hzero
  · have hRS : R * S = S := Nat.eq_of_mul_eq_mul_left hpos heq
    have : S < R * S := lt_mul_of_one_lt_left hS hR
    omega

/-- Steps of at least a block are mapped to `R` times themselves and smaller steps to
themselves. That maps every sum of steps right exactly when the large steps are whole blocks
and the small ones never leave the first block, or when blocks are not spread. -/
theorem spread_sum_iff (hS : 0 < S) (hR : 0 < R) (K : Finset ι) (step count : ι → ℕ)
    (hcount : ∀ k ∈ K, 0 < count k) :
    (∀ trip : ι → ℕ, (∀ k ∈ K, trip k < count k) →
      ∑ k ∈ K, (if S ≤ step k then R * step k else step k) * trip k =
        spread R S (∑ k ∈ K, step k * trip k)) ↔
      R = 1 ∨ (∀ k ∈ K, 2 ≤ count k → S ≤ step k → S ∣ step k) ∧
        ∑ k ∈ K with step k < S, step k * (count k - 1) < S := by
  classical
  constructor
  · intro h
    refine or_iff_not_imp_left.mpr fun hne => ⟨fun k hk htwo hle => ?_, ?_⟩
    · -- One step along `k` and none along the others.
      have hone := h (fun j => if j = k then 1 else 0) fun j hj => by
        split_ifs with hjk
        · subst hjk
          omega
        · exact hcount j hj
      simp only [mul_ite, mul_one, mul_zero, Finset.sum_ite_eq', hk, if_true, if_pos hle] at hone
      exact dvd_of_spread_eq_mul hne hone.symm
    · -- Every small step as often as possible.
      have hall := h (fun j => if step j < S then count j - 1 else 0) fun j hj => by
        have := hcount j hj
        split_ifs <;> omega
      have hleft : ∀ k ∈ K, (if S ≤ step k then R * step k else step k) *
          (if step k < S then count k - 1 else 0) =
            if step k < S then step k * (count k - 1) else 0 := by
        intro k _
        by_cases hk : step k < S
        · rw [if_neg (by omega), if_pos hk, if_pos hk]
        · rw [if_neg hk, if_neg hk, mul_zero]
      simp only [mul_ite, mul_zero] at hall hleft
      rw [Finset.sum_congr rfl hleft, ← Finset.sum_filter] at hall
      exact lt_of_spread_eq hS (by omega) hall.symm
  · rintro (rfl | ⟨hlarge, hsmall⟩) trip htrip
    · rw [spread_one]
      exact Finset.sum_congr rfl fun k _ => by rw [one_mul, ite_self]
    · have hsplit := Finset.sum_filter_add_sum_filter_not K (fun k => S ≤ step k)
        fun k => step k * trip k
      have hdvd : S ∣ ∑ k ∈ K with S ≤ step k, step k * trip k := by
        refine Finset.dvd_sum fun k hk => ?_
        obtain ⟨hk, hle⟩ := Finset.mem_filter.mp hk
        rcases Nat.eq_zero_or_pos (trip k) with hzero | hpos
        · rw [hzero, mul_zero]
          exact dvd_zero S
        · have := htrip k hk
          exact Dvd.dvd.mul_right (hlarge k hk (by omega) hle) (trip k)
      have hlt : ∑ k ∈ K with ¬S ≤ step k, step k * trip k < S := by
        refine lt_of_le_of_lt ?_ hsmall
        simp only [not_le]
        refine Finset.sum_le_sum fun k hk => Nat.mul_le_mul_left _ ?_
        have := htrip k (Finset.mem_filter.mp hk).1
        omega
      rw [← hsplit, spread_add hS hdvd hlt, ← Finset.sum_filter_add_sum_filter_not K
        (fun k => S ≤ step k), Finset.mul_sum]
      congr 1
      · refine Finset.sum_congr rfl fun k hk => ?_
        rw [if_pos (Finset.mem_filter.mp hk).2, mul_assoc]
      · refine Finset.sum_congr rfl fun k hk => ?_
        rw [if_neg (Finset.mem_filter.mp hk).2]

end Blocks

/-! ## Nested strides -/

section Nested

variable {size stride tile count : α → ℕ} {l : List α}

variable {d : α} {p : α → Bool} {f x : α → ℕ}

theorem weight_congr {g : α → ℕ} (h : ∀ b ∈ l, f b = g b) (a : α) :
    weight f l a = weight g l a := by
  induction l with
  | nil => rfl
  | cons b l ih =>
    have hl : ∀ c ∈ l, f c = g c := fun c hc => h c (mem_cons_of_mem b hc)
    unfold weight
    rw [map_congr_left hl, ih hl]

theorem weight_mul (f g : α → ℕ) (l : List α) (a : α) :
    weight (fun b => f b * g b) l a = weight f l a * weight g l a := by
  induction l with
  | nil => rfl
  | cons b l ih =>
    unfold weight
    split_ifs
    · exact prod_map_mul
    · exact ih

omit [DecidableEq α] in
theorem prod_map_filter {l : List α} (h : ∀ b ∈ l, p b = false → f b = 1) :
    ((l.filter p).map f).prod = (l.map f).prod := by
  induction l with
  | nil => rfl
  | cons b l ih =>
    have ih := ih fun c hc => h c (mem_cons_of_mem b hc)
    cases hb : p b with
    | true => rw [filter_cons_of_pos hb, map_cons, prod_cons, ih, map_cons, prod_cons]
    | false => rw [filter_cons_of_neg (by simp [hb]), ih, map_cons, prod_cons,
        h b mem_cons_self hb, one_mul]

/-- Dimensions of size one can be left out. -/
theorem weight_filter (h : ∀ b ∈ l, p b = false → f b = 1) {a : α} (ha : p a = true) :
    weight f (l.filter p) a = weight f l a := by
  induction l with
  | nil => rfl
  | cons b l ih =>
    have hl : ∀ c ∈ l, p c = false → f c = 1 := fun c hc => h c (mem_cons_of_mem b hc)
    by_cases hab : a = b
    · subst hab
      rw [filter_cons_of_pos ha, weight_cons_self, weight_cons_self, prod_map_filter hl]
    · rw [weight_cons_of_ne f l hab, ← ih hl]
      cases hb : p b with
      | true => rw [filter_cons_of_pos hb, weight_cons_of_ne f _ hab]
      | false => rw [filter_cons_of_neg (by simp [hb])]

omit [DecidableEq α] in
/-- Where each stride is at least what the next dimension inside spans, the inner dimensions stay
below the stride of the outer one. -/
theorem sum_lt_stride (hpos : ∀ e ∈ d :: l, 0 < stride e)
    (hchain : (d :: l).IsChain fun d e => stride e * size e ≤ stride d)
    (hx : ∀ e ∈ l, x e < size e) : (l.map fun e => x e * stride e).sum < stride d := by
  induction l generalizing d with
  | nil => exact hpos d mem_cons_self
  | cons e l ih =>
    obtain ⟨hspan, hchain⟩ := isChain_cons_cons.mp hchain
    have hinner := ih (fun f hf => hpos f (mem_cons_of_mem d hf)) hchain
      fun f hf => hx f (mem_cons_of_mem e hf)
    have hstep : (x e + 1) * stride e ≤ size e * stride e :=
      Nat.mul_le_mul_right _ (hx e mem_cons_self)
    rw [Nat.succ_mul] at hstep
    rw [Nat.mul_comm] at hspan
    rw [map_cons, sum_cons]
    omega

omit [DecidableEq α] in
/-- Then the offset determines the coordinates. -/
theorem eq_of_sum_eq {y : α → ℕ} (hpos : ∀ e ∈ l, 0 < stride e)
    (hchain : l.IsChain fun d e => stride e * size e ≤ stride d) (hx : ∀ e ∈ l, x e < size e)
    (hy : ∀ e ∈ l, y e < size e)
    (h : (l.map fun e => x e * stride e).sum = (l.map fun e => y e * stride e).sum) :
    ∀ e ∈ l, x e = y e := by
  induction l with
  | nil => simp
  | cons d l ih =>
    have hltx := sum_lt_stride hpos hchain fun e he => hx e (mem_cons_of_mem d he)
    have hlty := sum_lt_stride hpos hchain fun e he => hy e (mem_cons_of_mem d he)
    rw [map_cons, sum_cons, map_cons, sum_cons, Nat.mul_comm (x d), Nat.mul_comm (y d)] at h
    have hdiv := congrArg (· / stride d) h
    simp only [Nat.mul_add_div (hpos d mem_cons_self), Nat.div_eq_of_lt hltx,
      Nat.div_eq_of_lt hlty, Nat.add_zero] at hdiv
    rw [hdiv, Nat.add_left_cancel_iff] at h
    refine forall_mem_cons.mpr ⟨hdiv, ih (fun e he => hpos e (mem_cons_of_mem d he))
      hchain.of_cons (fun e he => hx e (mem_cons_of_mem d he))
      (fun e he => hy e (mem_cons_of_mem d he)) h⟩

/-- Cut every dimension into `count` tiles, and divide its stride by the counts of the dimensions
inside. -/
structure Cut (size stride tile count step : α → ℕ) (l : List α) : Prop where
  nodup : l.Nodup
  pos : ∀ d ∈ l, 0 < stride d
  chain : l.IsChain fun d e => stride e * size e ≤ stride d
  tiles : ∀ d ∈ l, tile d * count d = size d
  step : ∀ d ∈ l, step d * weight count l d = stride d

variable {step : α → ℕ}

theorem Cut.of_cons (h : Cut size stride tile count step (d :: l)) :
    Cut size stride tile count step l where
  nodup := (nodup_cons.mp h.nodup).2
  pos e he := h.pos e (mem_cons_of_mem d he)
  chain := h.chain.of_cons
  tiles e he := h.tiles e (mem_cons_of_mem d he)
  step e he := by
    have hne : e ≠ d := fun hed => (nodup_cons.mp h.nodup).1 (hed ▸ he)
    rw [← h.step e (mem_cons_of_mem d he), weight_cons_of_ne count l hne]

theorem Cut.step_pos (h : Cut size stride tile count step l) (hd : d ∈ l) :
    0 < step d := by
  refine Nat.pos_of_ne_zero fun hzero => (h.pos d hd).ne' ?_
  rw [← h.step d hd, hzero, zero_mul]

/-- The tiles are nested as the dimensions are. -/
theorem Cut.isChain (h : Cut size stride tile count step l) :
    l.IsChain fun d e => step e * tile e ≤ step d := by
  induction l with
  | nil => exact .nil
  | cons d l ih =>
    cases l with
    | nil => exact .singleton d
    | cons e l =>
      have hstep := h.of_cons.step e mem_cons_self
      have hspan := (isChain_cons_cons.mp h.chain).1
      rw [weight_cons_self] at hstep
      have hcut : step e * tile e * weight count (d :: e :: l) d ≤
          step d * weight count (d :: e :: l) d :=
        calc step e * tile e * weight count (d :: e :: l) d
            = step e * (l.map count).prod * (tile e * count e) := by
              rw [weight_cons_self, map_cons, prod_cons]
              ring
          _ = stride e * size e := by rw [hstep, h.tiles e (by simp)]
          _ ≤ stride d := hspan
          _ = step d * weight count (d :: e :: l) d := (h.step d mem_cons_self).symm
      have hweight : 0 < weight count (d :: e :: l) d := by
        refine Nat.pos_of_ne_zero fun hzero => (h.pos d mem_cons_self).ne' ?_
        rw [← h.step d mem_cons_self, hzero, mul_zero]
      exact isChain_cons_cons.mpr ⟨Nat.le_of_mul_le_mul_right hcut hweight, ih h.of_cons⟩

theorem Cut.pairwise (h : Cut size stride tile count step l) (htile : ∀ d ∈ l, 0 < tile d) :
    l.Pairwise fun d e => step e * tile e ≤ step d := by
  -- tiles that are not empty nest transitively
  have : IsTrans α fun d e => 0 < tile e ∧ step e * tile e ≤ step d := ⟨fun d e f hde hef =>
    ⟨hef.1, (hef.2.trans (Nat.le_mul_of_pos_right _ hde.1)).trans hde.2⟩⟩
  have hchain : l.IsChain fun d e => 0 < tile e ∧ step e * tile e ≤ step d :=
    (List.IsChain.iff_mem.mp h.isChain).imp fun _ e hde => ⟨htile e hde.2.1, hde.2.2⟩
  exact hchain.pairwise.imp And.right

/-- Two dimensions whose tiles have several elements differ in their steps. -/
theorem Cut.step_ne (h : Cut size stride tile count step l) (htile : ∀ d ∈ l, 0 < tile d) {e : α}
    (hd : d ∈ l) (he : e ∈ l) (hde : d ≠ e) (hdlt : 1 < tile d) (helt : 1 < tile e) :
    step d ≠ step e := by
  have hlt : ∀ a ∈ l, 1 < tile a → step a < step a * tile a := fun a ha hlt => by
    have := Nat.mul_lt_mul_of_pos_left hlt (h.step_pos ha)
    omega
  obtain ⟨i, hi, rfl⟩ := mem_iff_getElem.mp hd
  obtain ⟨j, hj, rfl⟩ := mem_iff_getElem.mp he
  have hpairwise := pairwise_iff_getElem.mp (h.pairwise htile)
  rcases Nat.lt_trichotomy i j with hij | rfl | hij
  · have := hpairwise i j hi hj hij
    have := hlt _ he helt
    omega
  · exact absurd rfl hde
  · have := hpairwise j i hj hi hij
    have := hlt _ hd hdlt
    omega

/-- The extent shrinks at least by the number of tiles. -/
theorem Cut.extent_le (h : Cut size stride tile count step l) (htile : ∀ d ∈ l, 0 < tile d) :
    ((l.map fun d => (tile d - 1) * step d).sum + 1) * (l.map count).prod ≤
      (l.map fun d => (size d - 1) * stride d).sum + 1 := by
  induction l with
  | nil => simp
  | cons d l ih =>
    have hd := htile d mem_cons_self
    have htile : ∀ e ∈ l, 0 < tile e := fun e he => htile e (mem_cons_of_mem d he)
    have ih := ih h.of_cons htile
    have hstep := h.step d mem_cons_self
    have hsize := h.tiles d mem_cons_self
    have hlt := sum_lt_stride (fun e he => h.step_pos he) h.isChain
      (x := fun e => tile e - 1) fun e he => Nat.sub_lt (htile e he) Nat.one_pos
    rw [weight_cons_self] at hstep
    simp only [map_cons, sum_cons, prod_cons]
    set L := (l.map fun e => (tile e - 1) * step e).sum
    set C := (l.map count).prod
    set E := (l.map fun e => (size e - 1) * stride e).sum
    obtain ⟨m, hm⟩ := Nat.exists_eq_succ_of_ne_zero hd.ne'
    cases hc : count d with
    | zero => simp
    | succ c =>
      have hstride : (L + 1) * C ≤ stride d := hstep ▸ Nat.mul_le_mul_right C hlt
      have hlast : size d - 1 = m * (c + 1) + c := by
        rw [← hsize, hm, hc, Nat.succ_mul]
        rfl
      rw [hlast, hm, Nat.succ_sub_one]
      calc (m * step d + L + 1) * ((c + 1) * C)
          = m * (c + 1) * (step d * C) + c * ((L + 1) * C) + (L + 1) * C := by ring
        _ ≤ m * (c + 1) * stride d + c * stride d + (E + 1) := by
          rw [hstep]
          exact Nat.add_le_add (Nat.add_le_add_left (Nat.mul_le_mul_left c hstride) _) ih
        _ = (m * (c + 1) + c) * stride d + E + 1 := by ring

end Nested

/-! ## Linear addresses -/

/-- The sum of the coordinates, each times the product of the inner sizes. -/
def linearAddress : List ℕ → List ℤ → ℤ
  | [], _ => 0
  | _ :: _, [] => 0
  | _ :: sizes, c :: coords => c * (sizes.prod : ℕ) + linearAddress sizes coords

theorem linearAddress_append {sizes : List ℕ} {coords : List ℤ} (h : sizes.length = coords.length)
    (sizes' : List ℕ) (coords' : List ℤ) :
    linearAddress (sizes ++ sizes') (coords ++ coords') =
      linearAddress sizes coords * (sizes'.prod : ℕ) + linearAddress sizes' coords' := by
  induction sizes generalizing coords with
  | nil =>
    obtain rfl := length_eq_zero_iff.mp h.symm
    simp [linearAddress]
  | cons s sizes ih =>
    obtain ⟨c, coords, rfl⟩ := exists_of_length_succ coords h.symm
    rw [cons_append, cons_append, linearAddress, linearAddress,
      ih (Nat.succ_injective h), prod_append]
    push_cast
    ring

/-- The address of an element of a layout whose last dimension, of size `stick`, is no
dimension of the list. -/
theorem linearAddress_map (size : α → ℕ) (stick : ℕ) (coord : α → ℤ) (last : ℤ) (hl : l.Nodup) :
    linearAddress (l.map size ++ [stick]) (l.map coord ++ [last]) =
      (l.map fun a => coord a * (weight size l a * stick : ℕ)).sum + last := by
  induction l with
  | nil => simp [linearAddress]
  | cons b l ih =>
    obtain ⟨hb, hl⟩ := nodup_cons.mp hl
    have htail : (l.map fun a => coord a * (weight size (b :: l) a * stick : ℕ)) =
        l.map fun a => coord a * (weight size l a * stick : ℕ) := by
      refine map_congr_left fun a ha => ?_
      have hab : a ≠ b := fun h => hb (h ▸ ha)
      rw [weight_cons_of_ne size l hab]
    simp only [map_cons, cons_append, linearAddress, ih hl, sum_cons, htail,
      weight_cons_self, prod_append, prod_singleton]
    ring

end Strided
