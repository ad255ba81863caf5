import Mathlib

/-!
# Address spans and the gaps between them

Half-open spans `[lo, hi)` of addresses as pairs. Merging a list of spans sorted by start
gives separated spans that cover the given ones (`merge_separated`, `exists_mem_merge`), so
a block that fits between two neighbours of the merged list is clear of every given span
(`firstGap_clear`).
-/

open List

namespace Spans

/-- Merge the spans of a list into the span `[lo, hi)` as long as they touch it. -/
def mergeFrom (lo hi : ℕ) : List (ℕ × ℕ) → List (ℕ × ℕ)
  | [] => [(lo, hi)]
  | p :: l => if p.1 ≤ hi then mergeFrom lo (max hi p.2) l else (lo, hi) :: mergeFrom p.1 p.2 l

/-- Merge the spans of a list sorted by start. -/
def merge : List (ℕ × ℕ) → List (ℕ × ℕ)
  | [] => []
  | p :: l => mergeFrom p.1 p.2 l

/-- Nonnegative spans, each strictly before the next. -/
structure Separated (l : List (ℕ × ℕ)) : Prop where
  pairwise : l.Pairwise fun p q => p.2 < q.1
  le : ∀ p ∈ l, p.1 ≤ p.2

variable {l : List (ℕ × ℕ)} {hi lo : ℕ} {q : ℕ × ℕ}

theorem mergeFrom_spec (hle : lo ≤ hi) (hl : ∀ p ∈ l, p.1 ≤ p.2)
    (hs : l.Pairwise fun p q => p.1 ≤ q.1) (hlo : ∀ p ∈ l, lo ≤ p.1) :
    Separated (mergeFrom lo hi l) ∧ (∀ q ∈ mergeFrom lo hi l, lo ≤ q.1) ∧
      (∃ q ∈ mergeFrom lo hi l, q.1 ≤ lo ∧ hi ≤ q.2) ∧
      ∀ p ∈ l, ∃ q ∈ mergeFrom lo hi l, q.1 ≤ p.1 ∧ p.2 ≤ q.2 := by
  induction l generalizing lo hi with
  | nil => exact ⟨⟨by simp [mergeFrom], by simp [mergeFrom, hle]⟩, by simp [mergeFrom],
      by simp [mergeFrom], by simp⟩
  | cons p l ih =>
    obtain ⟨hp, hs⟩ := pairwise_cons.1 hs
    have hl' : ∀ q ∈ l, q.1 ≤ q.2 := fun q hq => hl q (by simp [hq])
    have hpp := hl p (by simp)
    rw [mergeFrom]
    split_ifs with htouch
    · obtain ⟨hsep, hge, ⟨q, hq, hq₁, hq₂⟩, hcov⟩ :=
        ih (hle.trans (le_max_left hi p.2)) hl' hs fun q hq => hlo q (by simp [hq])
      refine ⟨hsep, hge, ⟨q, hq, hq₁, (le_max_left hi p.2).trans hq₂⟩, fun r hr => ?_⟩
      rcases mem_cons.1 hr with rfl | hr
      · exact ⟨q, hq, hq₁.trans (hlo r (by simp)), (le_max_right hi r.2).trans hq₂⟩
      · exact hcov r hr
    · obtain ⟨hsep, hge, ⟨q, hq, hq₁, hq₂⟩, hcov⟩ := ih hpp hl' hs hp
      refine ⟨⟨pairwise_cons.2 ⟨fun r hr => ?_, hsep.pairwise⟩, fun r hr => ?_⟩,
        fun r hr => ?_, ⟨(lo, hi), by simp, le_rfl, le_rfl⟩, fun r hr => ?_⟩
      · exact (not_le.1 htouch).trans_le (hge r hr)
      · rcases mem_cons.1 hr with rfl | hr
        · exact hle
        · exact hsep.le r hr
      · rcases mem_cons.1 hr with rfl | hr
        · exact le_rfl
        · exact (hlo p (by simp)).trans (hge r hr)
      · rcases mem_cons.1 hr with rfl | hr
        · exact ⟨q, by simp [hq], hq₁, hq₂⟩
        · obtain ⟨q', hq', hcov'⟩ := hcov r hr
          exact ⟨q', by simp [hq'], hcov'⟩

theorem merge_separated (hl : ∀ p ∈ l, p.1 ≤ p.2) (hs : l.Pairwise fun p q => p.1 ≤ q.1) :
    Separated (merge l) := by
  cases l with
  | nil => exact ⟨by simp [merge], by simp [merge]⟩
  | cons p l =>
    obtain ⟨hp, hs⟩ := pairwise_cons.1 hs
    exact (mergeFrom_spec (hl p (by simp)) (fun q hq => hl q (by simp [hq])) hs hp).1

/-- Every given span lies in a merged one. -/
theorem exists_mem_merge (hl : ∀ p ∈ l, p.1 ≤ p.2) (hs : l.Pairwise fun p q => p.1 ≤ q.1)
    {p : ℕ × ℕ} (hp : p ∈ l) :
    ∃ q ∈ merge l, q.1 ≤ p.1 ∧ p.2 ≤ q.2 := by
  cases l with
  | nil => simp at hp
  | cons r l =>
    obtain ⟨hr, hs⟩ := pairwise_cons.1 hs
    obtain ⟨-, -, hself, hcov⟩ :=
      mergeFrom_spec (hl r (by simp)) (fun q hq => hl q (by simp [hq])) hs hr
    rcases mem_cons.1 hp with rfl | hp
    · exact hself
    · exact hcov p hp

/-- The merged spans end where given ones do. -/
theorem exists_end_of_mem_mergeFrom (hq : q ∈ mergeFrom lo hi l) :
    q.2 = hi ∨ ∃ p ∈ l, q.2 = p.2 := by
  induction l generalizing lo hi with
  | nil =>
    rw [mergeFrom, mem_singleton] at hq
    exact .inl (by rw [hq])
  | cons p l ih =>
    rw [mergeFrom] at hq
    split_ifs at hq with htouch
    · rcases ih hq with h | ⟨r, hr, h⟩
      · rcases max_choice hi p.2 with hm | hm
        · exact .inl (h.trans hm)
        · exact .inr ⟨p, by simp, h.trans hm⟩
      · exact .inr ⟨r, by simp [hr], h⟩
    · rcases mem_cons.1 hq with rfl | hq
      · exact .inl rfl
      · rcases ih hq with h | ⟨r, hr, h⟩
        · exact .inr ⟨p, by simp, h⟩
        · exact .inr ⟨r, by simp [hr], h⟩

theorem exists_end_of_mem_merge (hq : q ∈ merge l) :
    ∃ p ∈ l, q.2 = p.2 := by
  cases l with
  | nil => simp [merge] at hq
  | cons r l =>
    rcases exists_end_of_mem_mergeFrom hq with h | ⟨p, hp, h⟩
    · exact ⟨r, by simp, h⟩
    · exact ⟨p, by simp [hp], h⟩

/-- The first place for a block between neighbours, after rounding the end of the earlier
span. -/
def firstGap (round : ℕ → ℕ) (size : ℕ) : List (ℕ × ℕ) → Option ℕ
  | [] => none
  | [_] => none
  | p :: q :: l =>
    if round p.2 + size ≤ q.1 then some (round p.2) else firstGap round size (q :: l)

/-- A block in the gap found is clear of all spans, and starts at a rounded end. -/
theorem firstGap_clear {round : ℕ → ℕ} {size g : ℕ} (hl : Separated l)
    (hround : ∀ p ∈ l, p.2 ≤ round p.2) (h : firstGap round size l = some g) :
    (∃ p ∈ l, g = round p.2) ∧ (∃ q ∈ l, g + size ≤ q.1) ∧
      ∀ p ∈ l, p.2 ≤ g ∨ g + size ≤ p.1 := by
  induction l with
  | nil => simp [firstGap] at h
  | cons p l ih =>
    cases l with
    | nil => simp [firstGap] at h
    | cons q l =>
      obtain ⟨hp, hpw⟩ := pairwise_cons.1 hl.pairwise
      have hsep : Separated (q :: l) := ⟨hpw, fun r hr => hl.le r (by simp [hr])⟩
      rw [firstGap] at h
      split_ifs at h with hfits
      · obtain rfl := Option.some.inj h
        refine ⟨⟨p, by simp, rfl⟩, ⟨q, by simp, hfits⟩, fun r hr => ?_⟩
        rcases mem_cons.1 hr with rfl | hr
        · exact .inl (hround r (by simp))
        · rcases mem_cons.1 hr with rfl | hr
          · exact .inr hfits
          · have := (pairwise_cons.1 hpw).1 r hr
            have := hsep.le q (by simp)
            exact .inr (by omega)
      · obtain ⟨⟨r, hr, hg⟩, ⟨t, ht, hfit⟩, hclear⟩ :=
          ih hsep (fun r hr => hround r (by simp [hr])) h
        refine ⟨⟨r, by simp [hr], hg⟩, ⟨t, by simp [ht], hfit⟩, fun u hu => ?_⟩
        rcases mem_cons.1 hu with rfl | hu
        · have := hp r hr
          have := hsep.le r hr
          have := hround r (by simp [hr])
          exact .inl (by omega)
        · exact hclear u hu

end Spans
