import Mathlib

/-!
# Packed dimensions

A list of dimensions, outermost first, each with its size and a coordinate. The volume is the
product of the sizes, and the address is the sum of the coordinates, each times the volume of
the dimensions inside it.

Dimensions may be replaced block by block. The address stays if every block keeps its address
and its volume, and where a block does not keep its volume nothing outside it may be non-zero
(`address_flatMap`). A coordinate may be replaced by its digits between boundaries that divide
each other (`mod_div_split`, `div_split`).

`digits` writes a number with one digit for each radix of a list, the lowest first. Numbers below
the product of the radices are the tuples of digits below them (`bijOn_digits`).
-/

open List

namespace Radix

/-- The product of the sizes. -/
def volume (l : List (ℕ × ℕ)) : ℕ :=
  (l.map Prod.fst).prod

/-- The coordinates, each times the volume inside. -/
def address : List (ℕ × ℕ) → ℕ
  | [] => 0
  | d :: l => d.2 * volume l + address l

@[simp] theorem volume_nil : volume [] = 1 := rfl

@[simp] theorem volume_cons (d : ℕ × ℕ) (l : List (ℕ × ℕ)) : volume (d :: l) = d.1 * volume l := by
  simp [volume]

@[simp] theorem volume_append (l m : List (ℕ × ℕ)) :
    volume (l ++ m) = volume l * volume m := by
  simp [volume]

@[simp] theorem address_nil : address [] = 0 := rfl

@[simp] theorem address_cons (d : ℕ × ℕ) (l : List (ℕ × ℕ)) :
    address (d :: l) = d.2 * volume l + address l := rfl

theorem address_eq_zero {l : List (ℕ × ℕ)} (h : ∀ d ∈ l, d.2 = 0) : address l = 0 := by
  induction l with
  | nil => rfl
  | cons d l ih =>
    obtain ⟨hd, hl⟩ := forall_mem_cons.mp h
    rw [address_cons, hd, ih hl, Nat.zero_mul]

theorem address_append (m : List (ℕ × ℕ)) :
    ∀ l, address (l ++ m) = address l * volume m + address m
  | [] => by simp
  | d :: l => by
    rw [cons_append, address_cons, address_cons, address_append m l, volume_append]
    ring

/-! ## Replacing blocks -/

section Blocks

variable {α : Type*} {old new : α → List (ℕ × ℕ)}

/-- Blocks that keep their volumes keep the volume of the whole. -/
theorem volume_flatMap :
    ∀ {l : List α}, (∀ a ∈ l, volume (new a) = volume (old a)) →
      volume (l.flatMap new) = volume (l.flatMap old)
  | [], _ => rfl
  | a :: l, h => by
    rw [flatMap_cons, flatMap_cons, volume_append, volume_append,
      h a mem_cons_self, volume_flatMap fun b hb => h b (mem_cons_of_mem a hb)]

/-- Blocks that keep their addresses keep the address of the whole, if each keeps its volume or
has nothing outside it. -/
theorem address_flatMap :
    ∀ {l : List α}, (∀ a ∈ l, address (new a) = address (old a)) →
      (∀ pre a post, l = pre ++ a :: post →
        volume (new a) = volume (old a) ∨ ∀ b ∈ pre, address (old b) = 0) →
      address (l.flatMap new) = address (l.flatMap old)
  | [], _, _ => rfl
  | a :: l, haddr, hvol => by
    have hrest : address (l.flatMap new) = address (l.flatMap old) := by
      refine address_flatMap (fun b hb => haddr b (mem_cons_of_mem a hb))
        fun pre b post hl => ?_
      refine (hvol (a :: pre) b post (by rw [hl, cons_append])).imp_right fun hzero c hc => ?_
      exact hzero c (mem_cons_of_mem a hc)
    rw [flatMap_cons, flatMap_cons, address_append, address_append, hrest, haddr a mem_cons_self]
    by_cases hzero : address (old a) = 0
    · rw [hzero, Nat.zero_mul, Nat.zero_mul]
    · rw [volume_flatMap fun b hb => ?_]
      obtain ⟨pre, post, hl⟩ := append_of_mem hb
      refine (hvol (a :: pre) b post (by rw [hl, cons_append])).resolve_right fun hall => ?_
      exact hzero (hall a mem_cons_self)

end Blocks

/-! ## Digits -/

/-- What lies between two boundaries, cut at a third. -/
theorem mod_div_split {lo mid hi : ℕ} (x : ℕ) (hlo : lo ∣ mid) (hhi : mid ∣ hi) :
    x % hi / mid * (mid / lo) + x % mid / lo = x % hi / lo := by
  obtain ⟨q, rfl⟩ := hlo
  rcases Nat.eq_zero_or_pos lo with rfl | hpos
  · simp
  · rw [Nat.mul_div_cancel_left q hpos, ← Nat.mod_mod_of_dvd x hhi]
    generalize x % hi = y
    rw [Nat.mod_mul_right_div_self, ← Nat.div_div_eq_div_mul, Nat.mul_comm]
    exact Nat.div_add_mod (y / lo) q

/-- A number, cut at a boundary. -/
theorem div_split {lo mid : ℕ} (x : ℕ) (hlo : lo ∣ mid) :
    x / mid * (mid / lo) + x % mid / lo = x / lo := by
  have h := mod_div_split x hlo (dvd_zero mid)
  rwa [Nat.mod_zero] at h

/-! ## Numbers in mixed radix -/

/-- The digits of a number, the lowest first. -/
def digits : List ℕ → ℕ → List ℕ
  | [], _ => []
  | r :: l, x => x % r :: digits l (x / r)

theorem length_digits : ∀ (l : List ℕ) (x : ℕ), (digits l x).length = l.length
  | [], _ => rfl
  | r :: l, x => by rw [digits, length_cons, length_cons, length_digits l]

theorem digits_append (m : List ℕ) :
    ∀ (l : List ℕ) (x : ℕ), digits (l ++ m) x = digits l x ++ digits m (x / l.prod)
  | [], x => by simp [digits]
  | r :: l, x => by
    rw [cons_append, digits, digits, digits_append m l, cons_append, prod_cons,
      Nat.div_div_eq_div_mul]

/-- Multiples of the product of the radices do not show. -/
theorem digits_mod_prod : ∀ (l : List ℕ) (x : ℕ), digits l (x % l.prod) = digits l x
  | [], _ => rfl
  | r :: l, x => by
    rw [digits, digits, prod_cons, Nat.mod_mul_right_mod, Nat.mod_mul_right_div_self,
      digits_mod_prod l]

theorem bijOn_digits :
    ∀ {l : List ℕ}, (∀ r ∈ l, 0 < r) →
      Set.BijOn (digits l) (Set.Iio l.prod) {t | List.Forall₂ (· < ·) t l}
  | [], _ => by
    refine ⟨fun x _ => List.Forall₂.nil, fun x hx y hy _ => ?_, fun t ht => ⟨0, by simp, ?_⟩⟩
    · simp only [prod_nil, Set.mem_Iio, Nat.lt_one_iff] at hx hy
      rw [hx, hy]
    · rw [List.forall₂_nil_right_iff.mp ht]
      rfl
  | r :: l, hpos => by
    have hr : 0 < r := hpos r mem_cons_self
    obtain ⟨hmaps, hinj, hsurj⟩ := bijOn_digits fun a ha => hpos a (mem_cons_of_mem r ha)
    have hdiv : ∀ x < (r :: l).prod, x / r < l.prod := fun x hx =>
      Nat.div_lt_of_lt_mul (by rwa [prod_cons] at hx)
    refine ⟨fun x hx => .cons (Nat.mod_lt x hr) (hmaps (hdiv x hx)), fun x hx y hy heq => ?_,
      fun t ht => ?_⟩
    · obtain ⟨hmod, hrest⟩ := List.cons.inj heq
      rw [← Nat.div_add_mod x r, ← Nat.div_add_mod y r, hmod, hinj (hdiv x hx) (hdiv y hy) hrest]
    · obtain ⟨d, rest, hd, hrest, rfl⟩ := List.forall₂_cons_right_iff.mp ht
      obtain ⟨x, hx, rfl⟩ := hsurj hrest
      refine ⟨d + r * x, ?_, ?_⟩
      · have hle : r * (x + 1) ≤ r * l.prod := Nat.mul_le_mul_left r hx
        rw [Nat.mul_succ] at hle
        rw [Set.mem_Iio, prod_cons]
        omega
      · rw [digits, Nat.add_mul_mod_self_left, Nat.mod_eq_of_lt hd, Nat.add_mul_div_left _ _ hr,
          Nat.div_eq_of_lt hd, Nat.zero_add]

end Radix
