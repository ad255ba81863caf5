import Mathlib
import TorchSpyre.Contiguous

/-!
# Work division across the scheduler

The scheduler renames loop symbols, so `finalize_work_division_for_scheduler` in `pass_utils.py`
hands the splits over by the coefficients of the symbols in a write and a read index, and
`iteration_space_with_splits` looks them up again. A dictionary holds the last split of each
coefficient (`coeffSplitsFromIndex_apply`). Split symbols that share a coefficient or have none are
reported before.

If nothing is reported, every split symbol is in the write index and those with one coefficient
have one split (`foldl_collide`), so every split arrives. But symbols that are not split are
not looked at. One that shares its coefficient with a split symbol takes its split
(`transport_lossless_iff`).
-/

open List

namespace TorchSpyre

namespace WorkDivision

section Transport

variable {ν κ σ : Type} [DecidableEq ν] [Zero κ] [DecidableEq κ] [DecidableEq σ]

/-- The ownership of an operation: the split and the owner expression of each loop symbol. -/
structure LoopOwnership (ν σ : Type) where
  slices : List (ν × ℕ × σ)
  nodup : (slices.map Prod.fst).Nodup
  pos : ∀ s ∈ slices, 0 < s.2.1

/-- The split of a symbol, one if it has none. -/
def LoopOwnership.splitOf (ownership : LoopOwnership ν σ) (sym : ν) : ℕ :=
  ((ownership.slices.lookup sym).map Prod.fst).getD 1

/-- `_coeff_splits_from_index`, without the splits that are one. -/
def coeffSplitsFromIndex (slices : List (ν × ℕ × σ)) (index : ν → κ) : κ → Option ℕ :=
  slices.foldl (fun result s => if 1 < s.2.1 ∧ index s.1 ≠ 0 then
    Function.update result (index s.1) (some s.2.1) else result) fun _ => none

/-- `splits_by_index_coeff`. -/
def splitsByIndexCoeff (slices : List (ν × ℕ × σ)) (writeIndex readIndex : ν → κ) :
    (κ → Option ℕ) × (κ → Option ℕ) :=
  (coeffSplitsFromIndex slices writeIndex,
    coeffSplitsFromIndex (slices.filter fun s => writeIndex s.1 = 0) readIndex)

/-- Which of the two dictionaries a report is about. -/
inductive Label where
  | output
  | reduction

/-- A report: a split symbol without a coefficient, or two with one. -/
inductive Collision (ν κ σ : Type) where
  | absent (label : Label) (sym : ν)
  | clash (label : Label) (coeff : κ) (seen new : ν × ℕ × σ)

/-- The body of the loop over the symbols. The state has the entries seen and the collisions. -/
def collide (label : Label) (index : ν → κ)
    (st : (κ → Option (ν × ℕ × σ)) × List (Collision ν κ σ)) (s : ν × ℕ × σ) :
    (κ → Option (ν × ℕ × σ)) × List (Collision ν κ σ) :=
  if s.2.1 ≤ 1 then st
  else if index s.1 = 0 then (st.1, st.2 ++ [.absent label s.1])
  else (Function.update st.1 (index s.1) (some s),
    st.2 ++ ((st.1 (index s.1)).filter fun t => t.2 ≠ s.2).toList.map fun t =>
      .clash label (index s.1) t s)

/-- The reports over one of the two dictionaries. -/
def collisionsOf (label : Label) (index : ν → κ) (slices : List (ν × ℕ × σ)) :
    List (Collision ν κ σ) :=
  (slices.foldl (collide label index) (fun _ => none, [])).2

/-- What `finalize_work_division_for_scheduler` reports of an operation. -/
def collisions (slices : List (ν × ℕ × σ)) (writeIndex readIndex : ν → κ) :
    List (Collision ν κ σ) :=
  collisionsOf .output writeIndex slices ++
    collisionsOf .reduction readIndex (slices.filter fun s => writeIndex s.1 = 0)

/-- `apply_splits_from_index_coeff`, for one loop. -/
def applySplitsFromIndexCoeff (coeffSplits : (κ → Option ℕ) × (κ → Option ℕ))
    (writeIndex readIndex : ν → κ) (loop : ν × ℕ) : ℕ :=
  if loop.2 ≤ 1 then 1
  else if writeIndex loop.1 ≠ 0 then (coeffSplits.1 (writeIndex loop.1)).getD 1
  else if readIndex loop.1 ≠ 0 then (coeffSplits.2 (readIndex loop.1)).getD 1
  else 1

/-- `iteration_space_with_splits`. -/
def iterationSpaceWithSplits (coeffSplits : (κ → Option ℕ) × (κ → Option ℕ))
    (writeIndex readIndex : ν → κ) (itSpace : List (ν × ℕ)) : List (ν × ℕ × ℕ) :=
  itSpace.map fun loop =>
    (loop.1, loop.2, applySplitsFromIndexCoeff coeffSplits writeIndex readIndex loop)

/-! ## What arrives -/

omit [DecidableEq ν] [DecidableEq σ] in
theorem coeffSplitsFromIndex_apply (slices : List (ν × ℕ × σ)) (index : ν → κ) (c : κ) :
    coeffSplitsFromIndex slices index c = (slices.reverse.find? fun s =>
      1 < s.2.1 ∧ index s.1 ≠ 0 ∧ index s.1 = c).map fun s => s.2.1 := by
  unfold coeffSplitsFromIndex
  induction slices using List.reverseRecOn with
  | nil => rfl
  | append_singleton l s ih =>
    rw [foldl_append, reverse_append, foldl_cons, foldl_nil]
    by_cases hs : 1 < s.2.1 ∧ index s.1 ≠ 0
    · rw [if_pos hs]
      by_cases hc : index s.1 = c
      · simp [hs.1, hs.2, ← hc]
      · simpa [hc, Function.update_of_ne (Ne.symm hc)] using ih
    · have hnot : ¬(1 < s.2.1 ∧ index s.1 ≠ 0 ∧ index s.1 = c) := fun h => hs ⟨h.1, h.2.1⟩
      rw [if_neg hs, ih]
      simp [hnot]

omit [DecidableEq ν] in
/-- If nothing is reported, every split symbol is in the index, and the entry of its coefficient
has its split. -/
theorem foldl_collide (label : Label) (index : ν → κ) (slices : List (ν × ℕ × σ))
    (h : collisionsOf label index slices = []) :
    ∀ s ∈ slices, 1 < s.2.1 → index s.1 ≠ 0 ∧ ∃ t,
      (slices.foldl (collide label index) (fun _ => none, [])).1 (index s.1) = some t ∧
        t.2 = s.2 := by
  unfold collisionsOf at h
  induction slices using List.reverseRecOn with
  | nil => simp
  | append_singleton l x ih =>
    rw [foldl_append, foldl_cons, foldl_nil] at h ⊢
    generalize l.foldl (collide label index) (fun _ => none, []) = st at h ih ⊢
    unfold collide at h ⊢
    intro s hs hsplit
    split_ifs at h ⊢ with hx hzero
    · rcases mem_append.mp hs with hs | hs
      · exact ih h s hs hsplit
      · rw [mem_singleton.mp hs] at hsplit
        omega
    · simp at h
    · obtain ⟨hst, hclash⟩ := append_eq_nil_iff.mp h
      by_cases hsx : index s.1 = index x.1
      · refine ⟨hsx ▸ hzero, x, by simp [hsx], ?_⟩
        rcases mem_append.mp hs with hs | hs
        · obtain ⟨-, t, ht, hts⟩ := ih hst s hs hsplit
          rw [← hts]
          have hsame : t.2 = x.2 := by simpa [← hsx, ht] using hclash
          exact hsame.symm
        · rw [mem_singleton.mp hs]
      · rcases mem_append.mp hs with hs | hs
        · dsimp only
          rw [Function.update_of_ne hsx]
          exact ih hst s hs hsplit
        · exact absurd (by rw [mem_singleton.mp hs]) hsx

omit [DecidableEq σ] in
/-- A split symbol has an entry with its split. -/
theorem LoopOwnership.exists_of_splitOf (ownership : LoopOwnership ν σ) {sym : ν}
    (h : ownership.splitOf sym ≠ 1) :
    ∃ s ∈ ownership.slices, s.1 = sym ∧ s.2.1 = ownership.splitOf sym ∧ 1 < s.2.1 := by
  unfold splitOf at h ⊢
  cases hs : ownership.slices.lookup sym with
  | none => simp [hs] at h
  | some s =>
    have hmem := Lists.mem_of_lookup hs
    have hpos := ownership.pos _ hmem
    have hne : s.1 ≠ 1 := by simpa [hs] using h
    exact ⟨(sym, s), hmem, rfl, rfl, by dsimp only at hpos ⊢; omega⟩

omit [Zero κ] [DecidableEq κ] [DecidableEq σ] in
/-- A symbol whose coefficient no split symbol has is not split. -/
theorem LoopOwnership.splitOf_eq_one (ownership : LoopOwnership ν σ) {index : ν → κ} {sym : ν}
    (h : ∀ s ∈ ownership.slices, 1 < s.2.1 → index s.1 ≠ index sym) :
    ownership.splitOf sym = 1 := by
  by_contra hne
  obtain ⟨s, hs, hsym, -, hlt⟩ := ownership.exists_of_splitOf hne
  exact h s hs hlt (by rw [hsym])

variable {ν' : Type} (ownership : LoopOwnership ν σ) {writeIndex readIndex : ν → κ}
  {writeIndex' readIndex' : ν' → κ}

/-- What arrives for one loop of range above one. -/
theorem decode_eq_iff (h : collisions ownership.slices writeIndex readIndex = []) {loop : ν × ℕ}
    {sym : ν'} (hwrite : writeIndex' sym = writeIndex loop.1) (hrange : 1 < loop.2) :
    applySplitsFromIndexCoeff (splitsByIndexCoeff ownership.slices writeIndex readIndex)
        writeIndex' readIndex' (sym, loop.2) = ownership.splitOf loop.1 ↔
      (ownership.splitOf loop.1 = 1 →
        ∀ s ∈ ownership.slices, 1 < s.2.1 → writeIndex s.1 ≠ writeIndex loop.1) := by
  have hsplit := foldl_collide _ _ _ (append_eq_nil_iff.mp h).1
  have hreduction : ∀ c, coeffSplitsFromIndex
      (ownership.slices.filter fun s => writeIndex s.1 = 0) readIndex c = none := by
    intro c
    rw [coeffSplitsFromIndex_apply, Option.map_eq_none_iff, find?_eq_none]
    intro s hs hcond
    obtain ⟨hs, hzero⟩ := mem_filter.mp (mem_reverse.mp hs)
    exact (hsplit s hs (of_decide_eq_true hcond).1).1 (of_decide_eq_true hzero)
  simp only [applySplitsFromIndexCoeff, splitsByIndexCoeff, hwrite, hreduction,
    if_neg (not_le.mpr hrange)]
  by_cases hzero : writeIndex loop.1 = 0
  · have hall : ∀ s ∈ ownership.slices, 1 < s.2.1 → writeIndex s.1 ≠ writeIndex loop.1 :=
      fun s hs hlt => hzero ▸ (hsplit s hs hlt).1
    exact iff_of_true (by simp [hzero, ownership.splitOf_eq_one hall]) fun _ => hall
  · rw [if_pos hzero, coeffSplitsFromIndex_apply]
    cases hfind : ownership.slices.reverse.find? fun s =>
        1 < s.2.1 ∧ writeIndex s.1 ≠ 0 ∧ writeIndex s.1 = writeIndex loop.1 with
    | none =>
      have hnone : ∀ s ∈ ownership.slices, 1 < s.2.1 → writeIndex s.1 ≠ writeIndex loop.1 := by
        intro s hs hlt heq
        refine find?_eq_none.mp hfind s (mem_reverse.mpr hs) ?_
        simp [hlt, heq, hzero]
      exact iff_of_true (by simp [ownership.splitOf_eq_one hnone]) fun _ => hnone
    | some t =>
      obtain ⟨hlt, -, ht⟩ :
          1 < t.2.1 ∧ writeIndex t.1 ≠ 0 ∧ writeIndex t.1 = writeIndex loop.1 := by
        simpa using find?_some hfind
      have hmem := mem_reverse.mp (mem_of_find?_eq_some hfind)
      by_cases hone : ownership.splitOf loop.1 = 1
      · simp only [Option.map_some, Option.getD_some, hone, true_implies]
        exact ⟨fun h => by omega, fun hall => absurd ht (hall t hmem hlt)⟩
      · obtain ⟨s, hs, hsym, hval, hslt⟩ := ownership.exists_of_splitOf hone
        obtain ⟨-, u, hu, hus⟩ := hsplit s hs hslt
        obtain ⟨-, w, hw, hwt⟩ := hsplit t hmem hlt
        rw [ht, ← hsym, hu] at hw
        obtain rfl := Option.some.inj hw
        refine iff_of_true ?_ fun h => absurd h hone
        rw [Option.map_some, Option.getD_some, ← hval, ← hus, hwt]

/-- Where nothing is reported, every loop of range above one arrives with its split exactly if no
loop of range above one that is not split shares its write coefficient with a split one. -/
theorem transport_lossless_iff (rename : ν → ν')
    (hwrite : ∀ sym, writeIndex' (rename sym) = writeIndex sym) (itSpace : List (ν × ℕ))
    (h : collisions ownership.slices writeIndex readIndex = []) :
    iterationSpaceWithSplits (splitsByIndexCoeff ownership.slices writeIndex readIndex)
        writeIndex' readIndex' (itSpace.map fun loop => (rename loop.1, loop.2)) =
      (itSpace.map fun loop =>
        (rename loop.1, loop.2, if 1 < loop.2 then ownership.splitOf loop.1 else 1)) ↔
      ∀ loop ∈ itSpace, 1 < loop.2 → ownership.splitOf loop.1 = 1 →
        ∀ s ∈ ownership.slices, 1 < s.2.1 → writeIndex s.1 ≠ writeIndex loop.1 := by
  rw [iterationSpaceWithSplits, map_map, map_inj_left]
  refine forall₂_congr fun loop _ => ?_
  simp only [Function.comp_apply, Prod.mk.injEq, true_and]
  by_cases hrange : 1 < loop.2
  · simp only [hrange, if_true, true_implies]
    exact decode_eq_iff ownership h (hwrite loop.1) hrange
  · simp [applySplitsFromIndexCoeff, not_lt.mp hrange, hrange]

/-- The first of two loops is split in two. -/
def firstSplit : LoopOwnership (Fin 2) Unit :=
  ⟨[(0, 2, ()), (1, 1, ())], by decide, by decide⟩

/-- Loops with strides `8` and `1` keep their splits. -/
theorem transport_lossless_iff_rows :
    iterationSpaceWithSplits (splitsByIndexCoeff firstSplit.slices (![8, 1] : Fin 2 → ℤ) ![8, 1])
        (![8, 1] : Fin 2 → ℤ) ![8, 1] ([(0, 4), (1, 8)].map fun loop => (id loop.1, loop.2)) =
      ([((0 : Fin 2), 4), (1, 8)].map fun loop =>
        (id loop.1, loop.2, if 1 < loop.2 then firstSplit.splitOf loop.1 else 1)) :=
  (transport_lossless_iff firstSplit id (fun _ => rfl) [(0, 4), (1, 8)] (by decide)).mpr (by decide)

/-- Where both loops have the stride `1`, nothing is reported and both arrive split. -/
theorem transport_overlapping :
    collisions firstSplit.slices (![1, 1] : Fin 2 → ℤ) ![1, 1] = [] ∧
      iterationSpaceWithSplits (splitsByIndexCoeff firstSplit.slices (![1, 1] : Fin 2 → ℤ) ![1, 1])
        (![1, 1] : Fin 2 → ℤ) ![1, 1] [(0, 4), (1, 4)] = [(0, 4, 2), (1, 4, 2)] ∧
      firstSplit.splitOf 1 = 1 := by
  decide

end Transport

end WorkDivision

end TorchSpyre
