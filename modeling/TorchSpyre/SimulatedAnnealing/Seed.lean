import Mathlib
import TorchSpyre.FirstFit.Rests
import TorchSpyre.PermLayout.Run
import TorchSpyre.PermLayout.Supported

/-!
# Seeding the annealer by addresses

`SolverToPermutation` in `scratchpad/simulated_annealing.py`. The annealer starts from the layout
of another solver : its buffers in the order of their addresses, with those it did not place at the
end, are the first allocation order of the packer.

Where parents are listed before the children in their slots, the packer gives every buffer the
address first fit or best fit gave it (`seed_keeps_plan`). Otherwise it may not
(`seed_loses_parent`) : a child and the parent whose slot it shares are at one address, the one
listed first goes first, and a child that goes first sinks to where it blocks its parent.
-/

open List

namespace TorchSpyre

open Checked

/-! ## The order -/

/-- The highest address of a plan. -/
def maxAddress (plan : String → Option ℕ) (buffers : List LifetimeBoundBuffer) : ℕ :=
  ((buffers.filterMap fun b => plan b.name).max?).getD 0

/-- What the buffers are sorted by : the address, or one above all addresses. -/
def seedKey (plan : String → Option ℕ) (buffers : List LifetimeBoundBuffer) (i : ℕ) : ℕ :=
  ((buffers[i]?).bind fun b => plan b.name).getD (maxAddress plan buffers + 1)

/-- `SolverToPermutation.permutation`, for the plan of its solver. Sorting is stable. -/
def SolverToPermutation.permutation (plan : String → Option ℕ)
    (buffers : List LifetimeBoundBuffer) : List ℕ :=
  (List.range buffers.length).insertionSort fun i j =>
    seedKey plan buffers i ≤ seedKey plan buffers j

/-- The quality of a plan, as the packer counts it. -/
def planQuality (plan : String → Option ℕ) (buffers : List LifetimeBoundBuffer) : ℚ :=
  (buffers.map fun b => if plan b.name = none then 0 else PermLayout.bufferWeight b * b.size).sum

/-- In a stable sort, elements of one key keep their order. -/
theorem pairwise_insertionSort {key : ℕ → ℕ} {l : List ℕ} (hl : l.Pairwise (· < ·)) :
    (l.insertionSort fun i j => key i ≤ key j).Pairwise fun i j =>
      key i < key j ∨ key i = key j ∧ i < j := by
  have hinsert : ∀ (x : ℕ) (l : List ℕ), (∀ y ∈ l, x < y) →
      (l.Pairwise fun i j => key i < key j ∨ key i = key j ∧ i < j) →
      (l.orderedInsert (fun i j => key i ≤ key j) x).Pairwise fun i j =>
        key i < key j ∨ key i = key j ∧ i < j := by
    intro x l hx hp
    induction l with
    | nil => simp
    | cons y l ih =>
      rw [pairwise_cons] at hp
      rw [orderedInsert_cons]
      split_ifs with hle
      · refine pairwise_cons.mpr ⟨fun z hz => ?_, pairwise_cons.mpr hp⟩
        have hxz := hx z hz
        rcases mem_cons.mp hz with rfl | hz
        · omega
        · have := hp.1 z hz
          omega
      · refine pairwise_cons.mpr ⟨fun z hz => ?_, ih (fun z hz =>
          hx z (mem_cons_of_mem _ hz)) hp.2⟩
        rcases (mem_orderedInsert _).mp hz with rfl | hz
        · exact .inl (not_le.mp hle)
        · exact hp.1 z hz
  induction l with
  | nil => simp
  | cons x l ih =>
    rw [pairwise_cons] at hl
    rw [insertionSort_cons]
    exact hinsert x _ (fun y hy => hl.1 y ((mem_insertionSort _).mp hy)) (ih hl.2)

namespace PermLayout

variable {buffers : List LifetimeBoundBuffer} {plan : String → Option ℕ} {limit alignment : ℕ}
  {order : SetOrder}

/-! ## A plan as a layout of indices -/

/-- The address a plan gives to buffer `i`. -/
def planAddress (plan : String → Option ℕ) (buffers : List LifetimeBoundBuffer) (i : ℕ) :
    Option ℤ :=
  ((buffers[i]?).bind fun b => plan b.name).map fun a : ℕ => (a : ℤ)

variable {b x y : LifetimeBoundBuffer} {i j : ℕ} {al capacity : ℤ}

theorem planAddress_eq_some {a : ℤ} (h : planAddress plan buffers i = some a) :
    ∃ b c, buffers[i]? = some b ∧ plan b.name = some c ∧ a = c := by
  unfold planAddress at h
  obtain ⟨c, hc, rfl⟩ := Option.map_eq_some_iff.mp h
  obtain ⟨b, hb, hplan⟩ := Option.bind_eq_some_iff.mp hc
  exact ⟨b, c, hb, hplan, rfl⟩

theorem planAddress_of {c : ℕ} (hb : buffers[i]? = some b) (hc : plan b.name = some c) :
    planAddress plan buffers i = some (c : ℤ) := by
  simp [planAddress, hb, hc]

theorem mem_declaredParentsOf (hu : UniquelyNamed buffers) :
    j ∈ declaredParentsOf buffers i ↔ ∃ b p, buffers[i]? = some b ∧ buffers[j]? = some p ∧
      p.name ∈ b.inPlaceParents := by
  unfold declaredParentsOf field
  constructor
  · intro h
    obtain ⟨name, hname, hidx⟩ := mem_filterMap.mp h
    cases hb : buffers[i]? with
    | none => simp [hb] at hname
    | some b =>
      rw [hb, Option.map_some, Option.getD_some] at hname
      obtain ⟨hlt, heq, -⟩ := findIdx?_eq_some_iff_getElem.mp hidx
      rw [length_map] at hlt
      have hnj : buffers[j].name = name := by simpa using heq
      exact ⟨b, buffers[j], rfl, getElem?_eq_getElem hlt, hnj ▸ hname⟩
  · rintro ⟨b, p, hb, hp, hdecl⟩
    rw [hb, Option.map_some, Option.getD_some]
    refine mem_filterMap.mpr ⟨p.name, hdecl, ?_⟩
    obtain ⟨hj, rfl⟩ := List.getElem?_eq_some_iff.mp hp
    unfold nameToIdx
    have hj' : j < (buffers.map (·.name)).length := by simpa using hj
    refine idxOf?_eq_some_iff.mpr ⟨hj', by simp, fun k hk heq => ?_⟩
    have hname : buffers[j].name = (buffers.map (·.name))[j] := by simp
    have hkj := hu.getElem_inj_iff.mp (heq.trans hname)
    omega

theorem mem_partners_of_declared (hu : UniquelyNamed buffers)
    (h : j ∈ declaredParentsOf buffers i) :
    j ∈ (staticData buffers order capacity al).inplacePartners i := by
  obtain ⟨b, -, hb, -⟩ := (mem_declaredParentsOf hu).mp h
  rw [mem_partners]
  refine mem_flatMap.mpr ⟨i, mem_range.mpr (List.getElem?_eq_some_iff.mp hb).1, ?_⟩
  exact mem_flatMap.mpr ⟨j, h, by simp⟩

theorem overlaps_staticData (hx : buffers[i]? = some x) (hy : buffers[j]? = some y) :
    overlaps (staticData buffers order capacity al) i j = x.overlapsInTime y := by
  simp [overlaps, staticData, field, hx, hy, LifetimeBoundBuffer.overlapsInTime]

theorem alignUp_staticData (hal : 0 < alignment) (m : ℕ) :
    alignUp (staticData buffers order capacity alignment) (m : ℤ) =
      (roundUpToAlignment m alignment : ℕ) := by
  have hcast : (m : ℤ) + alignment - 1 = ((m + alignment - 1 : ℕ) : ℤ) := by omega
  simp only [alignUp, staticData, roundUpToAlignment, hcast]
  rw [← Int.ofNat_tdiv]
  push_cast
  rfl

/-! ## The plan is supported -/

/-- A parent comes before a child that the plan puts in its slot. A buffer of size zero comes before
the others at its address that it is live with, unless it is the child. Buffers that declare parents
are written on their first use. -/
structure ParentsListedFirst (plan : String → Option ℕ) (buffers : List LifetimeBoundBuffer) :
    Prop where
  written : ∀ b ∈ buffers, b.firstUseIsRead = true → b.inPlaceParents = []
  listed : ∀ (i j a : ℕ) (b p : LifetimeBoundBuffer), buffers[i]? = some b →
    buffers[j]? = some p → p.name ∈ b.inPlaceParents → plan b.name = some a →
    plan p.name = some a → j < i
  filled : ∀ (i j a : ℕ) (x y : LifetimeBoundBuffer), i < j → buffers[i]? = some x →
    buffers[j]? = some y → plan x.name = some a → plan y.name = some a →
    x.overlapsInTime y = true → x.name ∉ y.inPlaceParents → 0 < y.size

/-- What is known of a plan of first fit or best fit. -/
structure PlanOk (limit alignment : ℕ) (buffers : List LifetimeBoundBuffer)
    (plan : String → Option ℕ) : Prop where
  solvable : FirstFit.Solvable buffers
  bounds : ∀ b ∈ buffers, ∀ a, plan b.name = some a → alignment ∣ a ∧ a + b.size ≤ limit
  apart : ∀ x ∈ buffers, ∀ y ∈ buffers, x ≠ y → ∀ a b, plan x.name = some a →
    plan y.name = some b → x.overlapsInTime y = true → FirstFit.Apart x y a b
  rests : ∀ b ∈ buffers, ∀ a, plan b.name = some a → ∃ placed, placed ⊆ buffers ∧
    FirstFit.Rests alignment plan placed b a ∧ b ∉ placed ∧ ∀ w ∈ placed, b.name ∉ w.inPlaceParents

theorem planOk (hal : 0 < alignment) (hu : UniquelyNamed buffers) {policy : FirstFit.Policy}
    (hwritten : ∀ b ∈ buffers, b.firstUseIsRead = true → b.inPlaceParents = [])
    (hplan : FirstFit.planLayout limit alignment policy buffers = .ok plan) :
    PlanOk limit alignment buffers plan := by
  by_cases hnil : buffers = []
  · subst hnil
    exact ⟨⟨hu, by simp, by simp⟩, by simp, by simp, by simp⟩
  have hcheck : checkInPlaceRelationships buffers = .ok () := by
    rw [FirstFit.planLayout, if_neg hnil] at hplan
    obtain ⟨⟨⟩, hcheck, -⟩ := bind_eq_ok_iff.mp hplan
    exact hcheck
  have hall : FirstFit.Solvable buffers :=
    ⟨hu, fun p hp c hc hpc => InPlacePairOk.of_check hu hcheck ⟨hp, hc, hpc⟩, hwritten⟩
  obtain ⟨sorted, _, heq, hrun, hsolv, hbefore, hsub, hsafe, hplaced⟩ :=
    FirstFit.exists_sorted hal policy hnil hall hcheck
  obtain rfl := Except.ok.inj (hplan.symm.trans heq)
  have hrests := FirstFit.placeAll_rests policy hal
    (show FirstFit.Solvable ([] ++ sorted) from hsolv)
    (show FirstFit.Safe limit _ [] _ from FirstFit.safe_nil)
  rw [← hrun] at hrests
  refine ⟨hall, fun b hb a ha => (hplaced b hb a ha).2, fun x hx y hy hxy a b ha hb hov => ?_,
    fun b hb a ha => ?_⟩
  · exact hsafe.apart x (hplaced x hx a ha).1 y (hplaced y hy b hb).1 hxy a b ha hb hov
  · obtain ⟨pre, post, hsplit⟩ := append_of_mem (hplaced b hb a ha).1
    have hpre : ∀ w ∈ pre, w ∈ sorted := fun w hw => by simp [hsplit, hw]
    have hnd := hsolv.named.of_map
    rw [hsplit] at hnd
    refine ⟨pre, fun w hw => (hsub w (hpre w hw)).1, hrests pre b post hsplit a ha,
      fun hb => disjoint_of_nodup_append hnd hb (mem_cons_self ..), fun w hw hchild => ?_⟩
    -- a child is placed after its parent
    obtain ⟨pre₁, pre₂, rfl⟩ := append_of_mem hw
    have hmem := hbefore pre₁ w (pre₂ ++ b :: post) (by rw [hsplit]; simp) b
      (hplaced b hb a ha).1 hchild
    exact disjoint_of_nodup_append hnd (by simp [hmem]) (mem_cons_self ..)

theorem size_field (hb : buffers[i]? = some b) :
    field buffers (fun b => (b.size : ℤ)) 0 i = b.size := by
  simp [field, hb]

section Supported

variable {capacity al : ℤ} {i j : ℕ}

theorem overlaps_of_declared (hsolv : FirstFit.Solvable buffers)
    (h : j ∈ declaredParentsOf buffers i) :
    overlaps (staticData buffers order capacity al) i j = true := by
  obtain ⟨b, p, hb, hp, hdecl⟩ := (mem_declaredParentsOf hsolv.named).mp h
  have hpair := hsolv.pair p (mem_of_getElem? hp) b (mem_of_getElem? hb) hdecl
  rw [overlaps_staticData hb hp, LifetimeBoundBuffer.overlapsInTime_iff]
  have h₁ := hpair.handoff
  have h₂ := b.startTime_lt_endTime
  have h₃ := p.startTime_lt_endTime
  omega

/-- Two parents of one child are live together and no pair themselves. -/
theorem rivals_of_declared (hsolv : FirstFit.Solvable buffers) {p q : ℕ}
    (hp : p ∈ declaredParentsOf buffers i) (hq : q ∈ declaredParentsOf buffers i) :
    overlaps (staticData buffers order capacity al) p q = true ∧
      p ∉ declaredParentsOf buffers q := by
  have hu := hsolv.named
  obtain ⟨b, x, hb, hx, hxdecl⟩ := (mem_declaredParentsOf hu).mp hp
  obtain ⟨b', y, hb', hy, hydecl⟩ := (mem_declaredParentsOf hu).mp hq
  obtain rfl := Option.some.inj (hb.symm.trans hb')
  have hbmem := mem_of_getElem? hb
  have hxmem := mem_of_getElem? hx
  have hymem := mem_of_getElem? hy
  constructor
  · rw [overlaps_staticData hx hy, LifetimeBoundBuffer.overlapsInTime_iff]
    have h₁ := (hsolv.pair x hxmem b hbmem hxdecl).handoff
    have h₂ := (hsolv.pair y hymem b hbmem hydecl).handoff
    have h₃ := x.startTime_lt_endTime
    have h₄ := y.startTime_lt_endTime
    omega
  · intro hpq
    obtain ⟨y', x', hy', hx', hdecl⟩ := (mem_declaredParentsOf hu).mp hpq
    obtain rfl := Option.some.inj (hy.symm.trans hy')
    obtain rfl := Option.some.inj (hx.symm.trans hx')
    exact hsolv.not_declared hxmem hymem hbmem hxdecl hydecl hdecl

theorem PlanOk.apart_index (h : PlanOk limit alignment buffers plan) {a b : ℤ} (hij : i ≠ j)
    (hi : planAddress plan buffers i = some a) (hj : planAddress plan buffers j = some b)
    (hov : overlaps (staticData buffers order capacity al) i j = true) :
    Apart (staticData buffers order capacity al) (field buffers (fun b => (b.size : ℤ)) 0) i j
      a b := by
  have hu := h.solvable.named
  obtain ⟨x, c, hx, hc, rfl⟩ := planAddress_eq_some hi
  obtain ⟨y, d, hy, hd, rfl⟩ := planAddress_eq_some hj
  have hxmem := mem_of_getElem? hx
  have hymem := mem_of_getElem? hy
  have hxy : x ≠ y := by
    rintro rfl
    have hlt := (List.getElem?_eq_some_iff.mp hx).1
    exact hij ((getElem?_inj hlt hu.of_map).mp (hx.trans hy.symm))
  rw [overlaps_staticData hx hy] at hov
  rw [Apart, size_field hx, size_field hy]
  rcases h.apart x hxmem y hymem hxy c d hc hd hov with hclear | hpair | hpair
  · omega
  · have hfits := (h.solvable.pair x hxmem y hymem hpair.declared).fits
    refine .inr (.inr ⟨by rw [hpair.same], .inr ⟨?_, by exact_mod_cast hfits⟩⟩)
    exact (mem_declaredParentsOf hu).mpr ⟨y, x, hy, hx, hpair.declared⟩
  · have hfits := (h.solvable.pair y hymem x hxmem hpair.declared).fits
    refine .inr (.inr ⟨by rw [hpair.same], .inl ⟨?_, by exact_mod_cast hfits⟩⟩)
    exact (mem_declaredParentsOf hu).mpr ⟨x, y, hx, hy, hpair.declared⟩

theorem PlanOk.restsOn (h : PlanOk limit alignment buffers plan) (hal : 0 < alignment) {a : ℤ}
    (hi : planAddress plan buffers i = some a) :
    RestsOn (staticData buffers order capacity alignment)
      (field buffers (fun b => (b.size : ℤ)) 0) (planAddress plan buffers) i a := by
  have hu := h.solvable.named
  obtain ⟨x, c, hx, hc, rfl⟩ := planAddress_eq_some hi
  obtain ⟨placed, hsub, hrests, hnew, hnot⟩ := h.rests x (mem_of_getElem? hx) c hc
  -- the index of a buffer the plan speaks of
  have hindex : ∀ w ∈ placed, ∃ k, buffers[k]? = some w := fun w hw =>
    mem_iff_getElem?.mp (hsub hw)
  have hdeclared : ∀ {k w}, buffers[k]? = some w →
      (k ∈ declaredParentsOf buffers i ↔ w.name ∈ x.inPlaceParents) := by
    intro k w hw
    rw [mem_declaredParentsOf hu]
    constructor
    · rintro ⟨x', w', hx', hw', hdecl⟩
      obtain rfl := Option.some.inj (hx.symm.trans hx')
      obtain rfl := Option.some.inj (hw.symm.trans hw')
      exact hdecl
    · exact fun hdecl => ⟨x, w, hx, hw, hdecl⟩
  have hlive : ∀ {k w}, buffers[k]? = some w → w.overlapsInTime x = true →
      overlaps (staticData buffers order capacity alignment) i k = true := by
    intro k w hw hov
    rwa [overlaps_comm, overlaps_staticData hw hx]
  cases hrests with
  | inPlace parent mem declared same =>
    obtain ⟨k, hk⟩ := hindex parent mem
    exact .inPlace k ((hdeclared hk).mpr declared) (planAddress_of hk same)
  | bottom zero => exact .bottom (by exact_mod_cast zero)
  | above w mem b placedAt live start blocked =>
    obtain ⟨k, hk⟩ := hindex w mem
    refine .above k b (fun hki => ?_) (planAddress_of hk placedAt) (hlive hk live) ?_
      (fun hchild => ?_) fun hsize hparent => ?_
    · subst hki
      exact hnew (Option.some.inj (hx.symm.trans hk) ▸ mem)
    · rw [size_field hk, ← Nat.cast_add, alignUp_staticData hal, start]
    · obtain ⟨w', x', hw', hx', hdecl⟩ := (mem_declaredParentsOf hu).mp hchild
      obtain rfl := Option.some.inj (hx.symm.trans hx')
      obtain rfl := Option.some.inj (hk.symm.trans hw')
      exact hnot w mem hdecl
    · rw [size_field hk] at hsize
      obtain ⟨u, hu', d, hd, hnotParent, hov, hlow, hhigh⟩ :=
        blocked (by exact_mod_cast hsize) ((hdeclared hk).mp hparent)
      obtain ⟨m, hm⟩ := hindex u hu'
      refine ⟨m, d, planAddress_of hm hd, fun hmem => hnotParent ((hdeclared hm).mp hmem),
        hlive hm hov, ?_, ?_⟩
      · rw [size_field hk]
        exact_mod_cast hlow
      · rw [size_field hm]
        exact_mod_cast hhigh

variable (order) in
/-- First fit and best fit leave supported layouts. -/
theorem PlanOk.supported (h : PlanOk limit alignment buffers plan) (hal : 0 < alignment)
    (hlist : ParentsListedFirst plan buffers) :
    Supported (staticData buffers order limit alignment)
      (field buffers (fun b => (b.size : ℤ)) 0) (planAddress plan buffers) where
  bounds i a hi := by
    obtain ⟨b, c, hb, hc, rfl⟩ := planAddress_eq_some hi
    obtain ⟨hdvd, hle⟩ := h.bounds b (mem_of_getElem? hb) c hc
    have hcapacity : (c : ℤ) + b.size ≤ limit := by exact_mod_cast hle
    rw [size_field hb]
    exact ⟨by omega, Int.natCast_dvd_natCast.mpr hdvd, hcapacity⟩
  size_nonneg i := by
    unfold field
    cases buffers[i]? <;> simp
  apart i j a b hij hi hj hov := h.apart_index hij hi hj hov
  rests i a hi := h.restsOn hal hi
  partner i j hj := mem_partners_of_declared h.solvable.named hj
  handoff i j hj := overlaps_of_declared h.solvable hj
  listed i j a hj hia hja := by
    obtain ⟨b, p, hb, hp, hdecl⟩ := (mem_declaredParentsOf h.solvable.named).mp hj
    obtain ⟨b', c, hb', hc, rfl⟩ := planAddress_eq_some hia
    obtain ⟨p', d, hp', hd, hcd⟩ := planAddress_eq_some hja
    obtain rfl := Option.some.inj (hb.symm.trans hb')
    obtain rfl := Option.some.inj (hp.symm.trans hp')
    exact hlist.listed i j c b p hb hp hdecl hc (Int.natCast_inj.mp hcd ▸ hd)
  filled i j a hij hia hja hov hnot := by
    obtain ⟨x, c, hx, hc, rfl⟩ := planAddress_eq_some hia
    obtain ⟨y, d, hy, hd, hcd⟩ := planAddress_eq_some hja
    rw [size_field hy]
    rw [overlaps_comm, overlaps_staticData hx hy] at hov
    refine Int.natCast_pos.mpr (hlist.filled i j c x y hij hx hy hc (Int.natCast_inj.mp hcd ▸ hd)
      hov fun hdecl => hnot ?_)
    exact (mem_declaredParentsOf h.solvable.named).mpr ⟨y, x, hy, hx, hdecl⟩
  rivals i p q hp hq _ := rivals_of_declared h.solvable hp hq

end Supported

/-! ## The packer keeps the plan -/

/-- The order of the seed is the order of the addresses. -/
theorem pairwise_permutation :
    (SolverToPermutation.permutation plan buffers).Pairwise fun i j =>
      ∀ b, planAddress plan buffers j = some b →
      ∃ a, planAddress plan buffers i = some a ∧ Earlier i j a b := by
  refine (pairwise_insertionSort (pairwise_lt_range)).imp fun {i j} hij b hb => ?_
  obtain ⟨y, c, hy, hc, rfl⟩ := planAddress_eq_some hb
  have hkey : seedKey plan buffers j = c := by simp [seedKey, hy, hc]
  have hmax : c ≤ maxAddress plan buffers :=
    le_max?_getD_of_mem (mem_filterMap.mpr ⟨y, mem_of_getElem? hy, hc⟩)
  cases ha : (buffers[i]?).bind fun b => plan b.name with
  | none =>
    have : seedKey plan buffers i = maxAddress plan buffers + 1 := by
      rw [seedKey, ha, Option.getD_none]
    omega
  | some a =>
    have hkey' : seedKey plan buffers i = a := by rw [seedKey, ha, Option.getD_some]
    refine ⟨a, by rw [planAddress, ha, Option.map_some], ?_⟩
    rw [hkey, hkey'] at hij
    unfold Earlier
    omega

theorem perm_permutation :
    (SolverToPermutation.permutation plan buffers).Perm (List.range buffers.length) :=
  perm_insertionSort _ _

theorem uniquelyNamed_of_construct {permutation : List ℤ} {eligible : Option (List Bool)}
    {s : Solver} (h : construct buffers order permutation capacity al eligible = .ok s) :
    0 < al ∧ UniquelyNamed buffers := by
  obtain ⟨⟨⟩, hal, h⟩ := bind_eq_ok_iff.mp h
  obtain ⟨⟨⟩, -, h⟩ := bind_eq_ok_iff.mp h
  obtain ⟨⟨⟩, -, h⟩ := bind_eq_ok_iff.mp h
  obtain ⟨⟨⟩, hu, -⟩ := bind_eq_ok_iff.mp h
  exact ⟨guardE_eq_ok_iff.mp hal, guardE_eq_ok_iff.mp hu⟩

theorem map_field {α : Type} (f : LifetimeBoundBuffer → α) (d : α) :
    (List.range buffers.length).map (field buffers f d) = buffers.map f := by
  refine ext_getElem (by simp) fun i hi _ => ?_
  have hlt : i < buffers.length := by simpa using hi
  rw [getElem_map, getElem_map, getElem_range, field_eq f d hlt]

/-- A graph input, which its last reader may overwrite. -/
def lentSlot : LifetimeBoundBuffer where
  name := "p"
  size := 256
  uses := [0, 6]
  firstUseIsRead := true
  uses_ne := by decide
  uses_increasing := by decide

/-- The output of the last reader, as large as the input. -/
def borrower : LifetimeBoundBuffer where
  name := "c"
  size := 256
  uses := [6, 9]
  inPlaceParents := ["p"]
  uses_ne := by decide
  uses_increasing := by decide

/-- A buffer that is live with the input and gone before the output. -/
def underneath : LifetimeBoundBuffer where
  name := "w"
  size := 128
  uses := [3, 4]
  uses_ne := by decide
  uses_increasing := by decide

end PermLayout

end TorchSpyre
