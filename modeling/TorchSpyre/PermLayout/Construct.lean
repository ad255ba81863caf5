import Mathlib
import TorchSpyre.PermLayout.Sweep

/-!
# What the constructor establishes

The static data derived from any list of buffers describe the lifetimes faithfully
(`intervalsOk_staticData`) and name as partners the declared parents and children only
(`ruleOk_staticData`). An accepted call leaves a state whose layout is the one its
permutation stands for (`construct_eq_ok`).
-/

open List

namespace TorchSpyre

open Checked

namespace PermLayout

variable {buffers : List LifetimeBoundBuffer}

variable {permutation : List ℤ} {order : SetOrder} {i j : ℕ} {alignment capacity : ℤ}

theorem field_eq {α : Type} (f : LifetimeBoundBuffer → α) (d : α) (hi : i < buffers.length) :
    field buffers f d i = f buffers[i] := by
  simp [field, hi]

theorem start_mem_intervalPoints (hi : i < buffers.length) :
    field buffers (·.startTime) 0 i ∈ intervalPoints buffers := by
  rw [field_eq _ _ hi]
  exact Timeline.mem_cutPoints.2 (mem_append_left _
    (mem_map_of_mem (getElem_mem hi)))

theorem stop_mem_intervalPoints (hi : i < buffers.length) :
    field buffers (·.endTime) 0 i ∈ intervalPoints buffers := by
  rw [field_eq _ _ hi]
  exact Timeline.mem_cutPoints.2 (mem_append_right _
    (mem_map_of_mem (getElem_mem hi)))

theorem start_lt_stop (hi : i < buffers.length) :
    field buffers (·.startTime) 0 i < field buffers (·.endTime) 0 i := by
  rw [field_eq _ _ hi, field_eq _ _ hi]
  exact buffers[i].startTime_lt_endTime

/-- A buffer has two endpoints, so the timeline has an interval. -/
theorem bufIntervalsOf_eq (hi : i < buffers.length) :
    bufIntervalsOf buffers i =
      (Timeline.bisectLeft (intervalPoints buffers) (field buffers (·.startTime) 0 i),
        Timeline.bisectLeft (intervalPoints buffers) (field buffers (·.endTime) 0 i)) := by
  have h₁ := Timeline.bisectLeft_lt (Timeline.pairwise_cutPoints _)
    (start_mem_intervalPoints hi) (start_lt_stop hi)
  have h₂ := Timeline.bisectLeft_lt_length (Timeline.pairwise_cutPoints _)
    (stop_mem_intervalPoints hi)
  unfold bufIntervalsOf
  refine if_neg fun h => ?_
  unfold intervalPoints at *
  omega

theorem intervalsOk_staticData (buffers : List LifetimeBoundBuffer) (order : SetOrder)
    (capacity alignment : ℤ) : IntervalsOk (staticData buffers order capacity alignment) where
  bound := by
    intro i hi t ht
    have hlen := Timeline.bisectLeft_lt_length (Timeline.pairwise_cutPoints _)
      (stop_mem_intervalPoints hi)
    simp only [liveIntervals, staticData, bufIntervalsOf_eq hi, Timeline.mem_cover] at ht ⊢
    unfold intervalPoints at *
    omega
  meet := by
    intro i hi j hj
    simp only [liveIntervals, staticData, bufIntervalsOf_eq hi, bufIntervalsOf_eq hj]
    refine (Timeline.exists_mem_cover_iff (Timeline.pairwise_cutPoints _)
      (start_mem_intervalPoints hi) (start_mem_intervalPoints hj) (start_lt_stop hi)
      (start_lt_stop hj)).trans ?_
    simp [overlaps]
  live := by
    intro i hi
    simpa [overlaps, staticData] using start_lt_stop hi
  total := by
    intro t
    refine Timeline.runningTotal_deltas _ _ _ (fun i hi => ?_) t
    rw [bufIntervalsOf_eq (mem_range.1 hi)]
    exact Timeline.bisectLeft_mono _ (start_lt_stop (mem_range.1 hi)).le
  overlap := by
    intro i hi w
    simp [staticData, overlaps]

theorem mem_partners :
    j ∈ (staticData buffers order capacity alignment).inplacePartners i ↔
      j ∈ partnerSet buffers i := by
  rw [staticData, (order.enum_perm _).mem_iff, mem_dedup]

theorem ruleOk_staticData (buffers : List LifetimeBoundBuffer) (order : SetOrder) (capacity : ℤ)
    (hal : 0 < alignment) :
    RuleOk (staticData buffers order capacity alignment) where
  alignment_pos := hal
  partner := by
    intro i j hj
    simp only [mem_partners, partnerSet, mem_flatMap, mem_append] at hj
    obtain ⟨child, -, parent, hp, hj | hj⟩ := hj
    · split_ifs at hj with h
      · subst h
        exact .inl (mem_singleton.1 hj ▸ hp)
      · simp at hj
    · split_ifs at hj with h
      · subst h
        exact .inr (mem_singleton.1 hj ▸ hp)
      · simp at hj

theorem sameRule_staticData (order order' : SetOrder) (capacity alignment : ℤ) :
    SameRule (staticData buffers order capacity alignment)
      (staticData buffers order' capacity alignment) :=
  ⟨rfl, rfl, rfl, rfl, rfl, rfl, fun _ _ => mem_partners.trans mem_partners.symm⟩

/-! ## The inverse permutation -/

theorem getD_inj {l : List ℕ} (hl : l.Nodup) (hi : i < l.length) (hj : j < l.length)
    (h : l.getD i 0 = l.getD j 0) : i = j := by
  rw [getD_eq_getElem _ _ hi, getD_eq_getElem _ _ hj] at h
  exact (List.Nodup.getElem_inj_iff hl).1 h

theorem renumber_apply {perm : List ℕ} (hperm : perm.Nodup) {ps : List ℕ}
    (hps : ∀ p ∈ ps, p < perm.length) (position : ℕ → ℕ) {k : ℕ} (hk : k < perm.length) :
    renumber perm ps position (perm.getD k 0) =
      if k ∈ ps then k else position (perm.getD k 0) := by
  induction ps generalizing position with
  | nil => simp [renumber]
  | cons p ps ih =>
    rw [renumber, foldl_cons]
    refine (ih (fun q hq => hps q (by simp [hq])) _).trans ?_
    by_cases hkp : k = p
    · subst hkp
      simp
    · have hne : perm.getD k 0 ≠ perm.getD p 0 := fun h =>
        hkp (getD_inj hperm hk (hps p (by simp)) h)
      rw [Function.update_of_ne hne]
      simp [hkp]

/-! ## The constructor -/

/-- The data are faithful, the order is a permutation, and the layout is the one it
stands for. -/
structure Valid (s : Solver) : Prop where
  intervals : IntervalsOk s.st
  rule : RuleOk s.st
  order : OrderOk s
  layout : LayoutOk s

namespace Valid

variable {s : Solver}

/-- Only an eligible buffer has an address. -/
theorem eligible_of_address (h : Valid s) {i : ℕ} (hi : i < s.st.n)
    (ha : (s.address i).isSome = true) : s.eligible i = true := by
  rw [h.layout.address i hi] at ha
  obtain ⟨a, ha⟩ := Option.isSome_iff_exists.1 ha
  exact (Safe.build h.rule h.order.nonneg s.permutation).eligible i a ha

/-- The count is the number of buffers with an address. -/
theorem totalAllocatedCount_eq (h : Valid s) :
    s.totalAllocatedCount = (List.range s.st.n).countP fun i => (s.address i).isSome := by
  have hcount : (layoutOf s).allocated =
      s.permutation.countP fun i => ((layoutOf s).address i).isSome :=
    allocated_build h.rule h.order.nonneg h.order.nodup
  rw [h.layout.allocated, hcount, h.order.perm.countP_eq]
  refine countP_congr fun i hi => ?_
  rw [h.layout.address i (mem_range.1 hi)]

end Valid

theorem perm_toNat {n : ℕ} (h : permutation.insertionSort (· ≤ ·) = (List.range n).map (↑)) :
    (permutation.map Int.toNat).Perm (List.range n) := by
  have hperm := ((perm_insertionSort (· ≤ ·) permutation).symm.trans (.of_eq h)).map Int.toNat
  simpa [Function.comp_def] using hperm

/-- What an accepted construction makes. -/
theorem construct_eq_ok {eligible : Option (List Bool)} {s : Solver}
    (h : construct buffers order permutation capacity alignment eligible = .ok s) :
    s = recomputeAll (initial buffers (staticData buffers order capacity alignment)
      (permutation.map Int.toNat) (initialFlags buffers eligible)) ∧ Valid s := by
  simp only [construct, bind_eq_ok_iff, guardE_eq_ok_iff] at h
  obtain ⟨-, hal, -, hsort, -, -, -, -, -, -, -, -, hs⟩ := h
  obtain rfl := Except.ok.inj hs
  have hperm := perm_toNat hsort
  have hlen : (permutation.map Int.toNat).length = buffers.length := by
    simpa using hperm.length_eq
  have hi := intervalsOk_staticData buffers order capacity alignment
  have hr := ruleOk_staticData buffers order capacity hal
  have hnn : ∀ i, 0 ≤ field buffers (fun b => (b.size : ℤ)) 0 i := by
    intro i
    by_cases hb : i < buffers.length
    · simp [field_eq _ _ hb]
    · simp [field, hb]
  have hpos : ∀ k < (permutation.map Int.toNat).length,
      renumber (permutation.map Int.toNat) (List.range buffers.length) (fun _ => 0)
        ((permutation.map Int.toNat).getD k 0) = k := by
    intro k hk
    rw [renumber_apply (hperm.nodup_iff.2 nodup_range)
      (fun p hp => hlen ▸ mem_range.1 hp) _ hk, if_pos (mem_range.2 (hlen ▸ hk))]
  exact ⟨rfl, hi, hr, ⟨hperm, hpos, hnn⟩, LayoutOk.recomputeAll hi hr ⟨hperm, hpos, hnn⟩⟩

end PermLayout

end TorchSpyre
