import Mathlib

/-!
# Choices from lists

`combinations` chooses a number of elements from a list, in the order of the list, and `product`
one element from each of several lists. What they enumerate (`mem_combinations`, `mem_product`)
is enumerated once where the lists have no repetitions (`nodup_combinations`,
`nodup_product`). `permutations` are the orders of a list, by the positions of its elements
(`perm_of_mem_permutations`).
-/

open List

namespace Choices

variable {α : Type}

/-- The sublists of `n` elements, by the positions of their elements. -/
def combinations : ℕ → List α → List (List α)
  | 0, _ => [[]]
  | _ + 1, [] => []
  | n + 1, a :: l => (combinations n l).map (a :: ·) ++ combinations (n + 1) l

variable {ls : List (List α)} {l s : List α}

theorem mem_combinations {n : ℕ} :
    s ∈ combinations n l ↔ s.Sublist l ∧ s.length = n := by
  induction l generalizing n s with
  | nil =>
    cases n with
    | zero => simp [combinations]
    | succ n =>
      simp only [combinations, not_mem_nil, sublist_nil, false_iff, not_and]
      rintro rfl
      simp
  | cons a l ih =>
    cases n with
    | zero =>
      simp only [combinations, mem_singleton, length_eq_zero_iff]
      exact ⟨fun h => ⟨h ▸ nil_sublist _, h⟩, fun h => h.2⟩
    | succ n =>
      rw [combinations, mem_append, mem_map, sublist_cons_iff, ih]
      constructor
      · rintro (⟨t, ht, rfl⟩ | ⟨hs, hlen⟩)
        · obtain ⟨ht, hlen⟩ := ih.mp ht
          exact ⟨.inr ⟨t, rfl, ht⟩, by rw [length_cons, hlen]⟩
        · exact ⟨.inl hs, hlen⟩
      · rintro ⟨hs | ⟨t, rfl, ht⟩, hlen⟩
        · exact .inr ⟨hs, hlen⟩
        · exact .inl ⟨t, ih.mpr ⟨ht, Nat.succ_injective hlen⟩, rfl⟩

theorem nodup_combinations (hl : l.Nodup) (n : ℕ) : (combinations n l).Nodup := by
  induction l generalizing n with
  | nil => cases n <;> simp [combinations]
  | cons a l ih =>
    obtain ⟨ha, hl⟩ := nodup_cons.mp hl
    cases n with
    | zero => simp [combinations]
    | succ n =>
      refine ((ih hl n).map (cons_injective)).append (ih hl (n + 1)) fun s hs hs' => ?_
      obtain ⟨t, -, rfl⟩ := mem_map.mp hs
      exact ha ((mem_combinations.mp hs').1.subset mem_cons_self)

/-- One element from each list, the choice from the last list varying first. -/
def product : List (List α) → List (List α)
  | [] => [[]]
  | l :: ls => l.flatMap fun a => (product ls).map (a :: ·)

theorem mem_product :
    s ∈ product ls ↔ List.Forall₂ (· ∈ ·) s ls := by
  induction ls generalizing s with
  | nil => simp [product]
  | cons l ls ih =>
    simp only [product, mem_flatMap, mem_map, ih]
    constructor
    · rintro ⟨a, ha, t, ht, rfl⟩
      exact .cons ha ht
    · intro h
      cases h with
      | cons ha ht => exact ⟨_, ha, _, ht, rfl⟩

/-- Each chosen element is in one of the lists. -/
theorem exists_of_mem_product {a : α} (h : s ∈ product ls) (ha : a ∈ s) : ∃ l ∈ ls, a ∈ l := by
  rw [mem_product] at h
  induction h with
  | nil => cases ha
  | cons hb _ ih =>
    rcases mem_cons.1 ha with rfl | ha
    · exact ⟨_, mem_cons_self, hb⟩
    · obtain ⟨l, hl, hal⟩ := ih ha
      exact ⟨l, mem_cons_of_mem _ hl, hal⟩

theorem nodup_product (h : ∀ l ∈ ls, l.Nodup) : (product ls).Nodup := by
  induction ls with
  | nil => simp [product]
  | cons l ls ih =>
    have hrest := ih fun l' hl' => h l' (mem_cons_of_mem l hl')
    refine nodup_flatMap.mpr ⟨fun a _ => hrest.map cons_injective, ?_⟩
    refine (h l mem_cons_self).imp fun {a b} hab s hs hs' => ?_
    obtain ⟨t, -, rfl⟩ := mem_map.mp hs
    obtain ⟨t', -, ht'⟩ := mem_map.mp hs'
    exact hab (List.cons.inj ht').1.symm

/-- Each element of a list, with the others. -/
def picks : List α → List (α × List α)
  | [] => []
  | a :: l => (a, l) :: (picks l).map fun p => (p.1, a :: p.2)

theorem mem_picks {p : α × List α} (h : p ∈ picks l) : (p.1 :: p.2).Perm l := by
  induction l generalizing p with
  | nil => cases h
  | cons a l ih =>
    rcases mem_cons.mp h with rfl | h
    · exact .refl _
    · obtain ⟨q, hq, rfl⟩ := mem_map.mp h
      exact (List.Perm.swap a q.1 q.2).trans ((ih hq).cons a)

/-- The orders of the first `n` elements chosen. -/
def arrangements : ℕ → List α → List (List α)
  | 0, _ => [[]]
  | n + 1, l => (picks l).flatMap fun p => (arrangements n p.2).map (p.1 :: ·)

/-- The orders of a list, the first element varying last. -/
def permutations (l : List α) : List (List α) :=
  arrangements l.length l

theorem perm_of_mem_permutations (h : s ∈ permutations l) : s.Perm l := by
  unfold permutations at h
  generalize hn : l.length = n at h
  induction n generalizing l s with
  | zero =>
    rw [length_eq_zero_iff.mp hn, mem_singleton.mp h]
  | succ n ih =>
    obtain ⟨p, hp, hs⟩ := mem_flatMap.mp h
    obtain ⟨t, ht, rfl⟩ := mem_map.mp hs
    have hperm := mem_picks hp
    have hlength : p.2.length = n := by
      have := hperm.length_eq
      rw [length_cons] at this
      omega
    exact ((ih hlength ht).cons p.1).trans hperm

end Choices
