import Mathlib
import TorchSpyre.PermLayout.Solver

/-!
# The layout from scratch

The layout a permutation stands for, with none of the packer's shortcuts : place the
eligible buffers one by one, each by the placement rule over all earlier eligible buffers
live at the same time (`build`).

The rule looks at the candidates as a set (`placeDecision_congr`), so the layout depends on
the order of the eligible buffers only (`build_filter`), on the sizes of the eligible
buffers only (`buildFrom_congr`), and not on the order of two neighbours that are never
live together (`buildFrom_swap`). Every layout is safe (`Safe.build`).
-/

open List

namespace TorchSpyre

namespace PermLayout

/-! ## The placement rule -/

section Rule

variable {st st' : StaticData} {sizes sizes' : ℕ → ℤ} {address address' : ℕ → Option ℤ}
  {idx : ℕ} {cand cand' : List ℕ}

variable {l : List ℕ} {p partner : ℕ} {a base : ℤ}

theorem maxTop_le_iff {m : ℤ} :
    maxTop sizes address base cand ≤ m ↔ base ≤ m ∧ ∀ p ∈ cand, top sizes address p ≤ m := by
  unfold maxTop
  induction cand generalizing base with
  | nil => simp
  | cons p cand ih => simp [ih, and_assoc]

theorem maxTop_congr (hc : ∀ p, p ∈ cand ↔ p ∈ cand')
    (ht : ∀ p ∈ cand, top sizes address p = top sizes' address' p) :
    maxTop sizes address base cand = maxTop sizes' address' base cand' := by
  refine eq_of_forall_ge_iff fun m => ?_
  rw [maxTop_le_iff, maxTop_le_iff]
  refine and_congr_right fun _ => ⟨fun h p hp => ?_, fun h p hp => ?_⟩
  · rw [← ht p ((hc p).2 hp)]
    exact h p ((hc p).2 hp)
  · rw [ht p hp]
    exact h p ((hc p).1 hp)

theorem gate_eq_some_iff {b : ℤ} :
    gate st sizes idx a = some b ↔ a = b ∧ a + sizes idx ≤ st.capacity := by
  unfold gate
  split_ifs with h
  · simp only [false_iff]
    omega
  · simp only [Option.some.injEq, iff_self_and]
    omega

/-- `partner`'s slot will do for `idx` : it is a candidate, the child of the pair is no
larger than the parent, and no other candidate reaches above its address. -/
structure SlotFits (st : StaticData) (sizes : ℕ → ℤ) (address : ℕ → Option ℤ) (idx : ℕ)
    (cand : List ℕ) (partner : ℕ) : Prop where
  mem : partner ∈ cand
  fits : sizes (inPlacePair st idx partner).2 ≤ sizes (inPlacePair st idx partner).1
  others : ∀ q ∈ cand, q ≠ partner → top sizes address q ≤ (address partner).getD 0
  nonneg : 0 ≤ (address partner).getD 0

theorem slotFits_iff :
    SlotFits st sizes address idx cand partner ↔ partner ∈ cand ∧
      ¬sizes (inPlacePair st idx partner).1 < sizes (inPlacePair st idx partner).2 ∧
      maxTop sizes address 0 (cand.filter (· ≠ partner)) ≤ (address partner).getD 0 := by
  rw [maxTop_le_iff]
  simp only [not_lt, mem_filter, decide_eq_true_eq]
  constructor
  · rintro ⟨hm, hf, ho, hn⟩
    exact ⟨hm, hf, hn, fun q hq => ho q hq.1 hq.2⟩
  · rintro ⟨hm, hf, hn, ho⟩
    exact ⟨hm, hf, fun q hq hne => ho q ⟨hq, hne⟩, hn⟩

/-- Two slots that will do are at one address, so the order in which the partners are
tried does not matter. -/
theorem SlotFits.address_unique (hs : ∀ p ∈ cand, 0 ≤ sizes p) {q : ℕ}
    (hp : SlotFits st sizes address idx cand p) (hq : SlotFits st sizes address idx cand q) :
    (address p).getD 0 = (address q).getD 0 := by
  by_cases hpq : p = q
  · rw [hpq]
  have h₁ := hp.others q hq.mem (Ne.symm hpq)
  have h₂ := hq.others p hp.mem hpq
  have h₃ := hs p hp.mem
  have h₄ := hs q hq.mem
  unfold top at h₁ h₂
  omega

theorem tryPartners_cons_pos (h : SlotFits st sizes address idx cand partner) :
    tryPartners st sizes address idx cand (partner :: l) =
      some (gate st sizes idx ((address partner).getD 0)) := by
  obtain ⟨hm, hf, ho⟩ := slotFits_iff.1 h
  simp only [tryPartners, if_pos hm, if_neg hf, if_pos ho]

theorem tryPartners_cons_neg (h : ¬SlotFits st sizes address idx cand partner) :
    tryPartners st sizes address idx cand (partner :: l) =
      tryPartners st sizes address idx cand l := by
  simp only [tryPartners]
  split_ifs with hm hf ho
  · rfl
  · exact absurd (slotFits_iff.2 ⟨hm, hf, ho⟩) h
  · rfl
  · rfl

theorem tryPartners_eq_none_iff :
    tryPartners st sizes address idx cand l = none ↔
      ∀ partner ∈ l, ¬SlotFits st sizes address idx cand partner := by
  induction l with
  | nil => simp [tryPartners]
  | cons partner l ih =>
    rw [forall_mem_cons]
    by_cases h : SlotFits st sizes address idx cand partner
    · simp [tryPartners_cons_pos h, h]
    · rw [tryPartners_cons_neg h, ih]
      exact ⟨fun hl => ⟨h, hl⟩, fun hl => hl.2⟩

theorem tryPartners_eq_some {d : Option ℤ} (h : tryPartners st sizes address idx cand l = some d) :
    ∃ partner ∈ l, SlotFits st sizes address idx cand partner ∧
      d = gate st sizes idx ((address partner).getD 0) := by
  induction l with
  | nil => simp [tryPartners] at h
  | cons partner l ih =>
    by_cases hp : SlotFits st sizes address idx cand partner
    · rw [tryPartners_cons_pos hp] at h
      exact ⟨partner, mem_cons_self, hp, (Option.some.inj h).symm⟩
    · rw [tryPartners_cons_neg hp] at h
      obtain ⟨q, hq, hfit⟩ := ih h
      exact ⟨q, mem_cons_of_mem _ hq, hfit⟩

/-- The two data agree on all the placement rule reads; the partners may be listed in
another order. -/
structure SameRule (st st' : StaticData) : Prop where
  capacity : st.capacity = st'.capacity
  alignment : st.alignment = st'.alignment
  start : st.start = st'.start
  stop : st.stop = st'.stop
  weight : st.weight = st'.weight
  declaredParents : st.declaredParents = st'.declaredParents
  partners : ∀ i j, j ∈ st.inplacePartners i ↔ j ∈ st'.inplacePartners i

theorem SameRule.refl (st : StaticData) : SameRule st st :=
  ⟨rfl, rfl, rfl, rfl, rfl, rfl, fun _ _ => Iff.rfl⟩

/-- What the placement rule reads is the same on both sides. -/
structure SameView (sizes sizes' : ℕ → ℤ) (address address' : ℕ → Option ℤ) (idx : ℕ)
    (cand cand' : List ℕ) : Prop where
  mem : ∀ p, p ∈ cand ↔ p ∈ cand'
  size : sizes idx = sizes' idx
  sizes : ∀ p ∈ cand, sizes p = sizes' p
  address : ∀ p ∈ cand, address p = address' p

theorem SameView.top (hv : SameView sizes sizes' address address' idx cand cand') (hp : p ∈ cand) :
    top sizes address p = top sizes' address' p := by
  rw [PermLayout.top, PermLayout.top, hv.sizes p hp, hv.address p hp]

theorem SameRule.gate (hr : SameRule st st')
    (hv : SameView sizes sizes' address address' idx cand cand') (a : ℤ) :
    gate st sizes idx a = gate st' sizes' idx a := by
  rw [PermLayout.gate, PermLayout.gate, hr.capacity, hv.size]

theorem SameRule.inPlacePair (hr : SameRule st st') (i j : ℕ) :
    inPlacePair st i j = inPlacePair st' i j := by
  rw [PermLayout.inPlacePair, PermLayout.inPlacePair, hr.declaredParents]

theorem SlotFits.congr (hr : SameRule st st')
    (hv : SameView sizes sizes' address address' idx cand cand') :
    SlotFits st sizes address idx cand partner ↔
      SlotFits st' sizes' address' idx cand' partner := by
  have hside (hp : partner ∈ cand) :
      sizes (PermLayout.inPlacePair st idx partner).1 =
          sizes' (PermLayout.inPlacePair st' idx partner).1 ∧
        sizes (PermLayout.inPlacePair st idx partner).2 =
          sizes' (PermLayout.inPlacePair st' idx partner).2 := by
    rw [hr.inPlacePair]
    unfold PermLayout.inPlacePair
    split
    · exact ⟨hv.sizes _ hp, hv.size⟩
    · exact ⟨hv.size, hv.sizes _ hp⟩
  constructor
  · rintro ⟨hm, hf, ho, hn⟩
    obtain ⟨h₁, h₂⟩ := hside hm
    rw [hv.address _ hm] at ho hn
    refine ⟨(hv.mem _).1 hm, by rwa [← h₁, ← h₂], fun q hq hne => ?_, hn⟩
    rw [← hv.top ((hv.mem q).2 hq)]
    exact ho q ((hv.mem q).2 hq) hne
  · rintro ⟨hm, hf, ho, hn⟩
    have hm' := (hv.mem _).2 hm
    obtain ⟨h₁, h₂⟩ := hside hm'
    rw [← hv.address _ hm'] at ho hn
    refine ⟨hm', by rwa [h₁, h₂], fun q hq hne => ?_, hn⟩
    rw [hv.top hq]
    exact ho q ((hv.mem q).1 hq) hne

/-- A candidate has been evicted. -/
theorem any_isNone_iff :
    (cand.any fun p => (address p).isNone) = true ↔ ∃ p ∈ cand, address p = none := by
  simp

/-- The placement rule reads its candidates as a set. -/
theorem placeDecision_congr (hr : SameRule st st')
    (hv : SameView sizes sizes' address address' idx cand cand') (hs : ∀ p ∈ cand, 0 ≤ sizes p) :
    placeDecision st sizes address idx cand = placeDecision st' sizes' address' idx cand' := by
  have hnil : cand = [] ↔ cand' = [] := by
    simp only [eq_nil_iff_forall_not_mem, hv.mem]
  have hany : (cand.any fun p => (address p).isNone) = cand'.any fun p => (address' p).isNone := by
    rw [Bool.eq_iff_iff, any_isNone_iff, any_isNone_iff]
    refine exists_congr fun p => ?_
    rw [← hv.mem]
    exact and_congr_right fun hp => by rw [hv.address p hp]
  have htop : maxTop sizes address (-2 ^ 63) cand = maxTop sizes' address' (-2 ^ 63) cand' :=
    maxTop_congr hv.mem fun p hp => hv.top hp
  have halign : ∀ a, alignUp st a = alignUp st' a := by
    intro a
    rw [alignUp, alignUp, hr.alignment]
  have hpartners :
      tryPartners st sizes address idx cand (st.inplacePartners idx) =
        tryPartners st' sizes' address' idx cand' (st'.inplacePartners idx) := by
    cases h : tryPartners st sizes address idx cand (st.inplacePartners idx) with
    | none =>
      symm
      rw [tryPartners_eq_none_iff] at h ⊢
      intro p hp hfit
      exact h p ((hr.partners idx p).2 hp) ((SlotFits.congr hr hv).2 hfit)
    | some d =>
      obtain ⟨p, hp, hfit, rfl⟩ := tryPartners_eq_some h
      cases h' : tryPartners st' sizes' address' idx cand' (st'.inplacePartners idx) with
      | none =>
        rw [tryPartners_eq_none_iff] at h'
        exact absurd ((SlotFits.congr hr hv).1 hfit) (h' p ((hr.partners idx p).1 hp))
      | some d' =>
        obtain ⟨q, hq, hfit', rfl⟩ := tryPartners_eq_some h'
        have hq' := (SlotFits.congr hr hv).2 hfit'
        rw [hr.gate hv, hfit.address_unique hs hq', hv.address q hq'.mem]
  simp only [placeDecision, hnil, hany, htop, halign, hpartners, hr.gate hv]

theorem le_alignUp (hal : 0 < st.alignment) (ha : 0 ≤ a) : a ≤ alignUp st a := by
  unfold alignUp
  rw [Int.tdiv_eq_ediv_of_nonneg (by omega)]
  have h₁ := Int.mul_ediv_add_emod (a + st.alignment - 1) st.alignment
  have h₂ := Int.emod_lt_of_pos (a + st.alignment - 1) hal
  rw [mul_comm] at h₁
  omega

theorem dvd_alignUp (a : ℤ) : st.alignment ∣ alignUp st a :=
  Dvd.intro_left _ rfl

theorem alignUp_zero (hal : 0 < st.alignment) : alignUp st 0 = 0 := by
  unfold alignUp
  rw [Int.tdiv_eq_ediv_of_nonneg (by omega), Int.ediv_eq_zero_of_lt (by omega) (by omega), zero_mul]

/-- Where the rule puts a buffer : on top of every candidate, or on a partner's slot with
every other candidate below. -/
structure Placed (st : StaticData) (sizes : ℕ → ℤ) (address : ℕ → Option ℤ) (idx : ℕ)
    (cand : List ℕ) (a : ℤ) : Prop where
  nonneg : 0 ≤ a
  aligned : st.alignment ∣ a
  fits : a + sizes idx ≤ st.capacity
  support : ∀ p ∈ cand, address p ≠ none
  clear : (∀ p ∈ cand, top sizes address p ≤ a) ∨
    ∃ partner ∈ st.inplacePartners idx, address partner = some a ∧
      SlotFits st sizes address idx cand partner

theorem Placed.of_placeDecision (hal : 0 < st.alignment) (hs : ∀ p ∈ cand, 0 ≤ sizes p)
    (ha : ∀ p ∈ cand, ∀ a, address p = some a → 0 ≤ a ∧ st.alignment ∣ a)
    (h : placeDecision st sizes address idx cand = some a) :
    Placed st sizes address idx cand a := by
  unfold placeDecision at h
  split_ifs at h with hnil hnone
  · obtain ⟨rfl, hcap⟩ := gate_eq_some_iff.1 h
    subst hnil
    exact ⟨le_rfl, dvd_zero _, hcap, by simp, .inl (by simp)⟩
  have hsome : ∀ p ∈ cand, address p ≠ none := fun p hp hn =>
    hnone (any_isNone_iff.2 ⟨p, hp, hn⟩)
  have htop : ∀ p ∈ cand, 0 ≤ top sizes address p := by
    intro p hp
    obtain ⟨b, hb⟩ := Option.ne_none_iff_exists'.1 (hsome p hp)
    have := (ha p hp b hb).1
    have := hs p hp
    simp only [top, hb, Option.getD_some]
    omega
  split at h
  case h_1 d hd =>
    obtain ⟨p, hp, hfit, rfl⟩ := tryPartners_eq_some hd
    obtain ⟨rfl, hcap⟩ := gate_eq_some_iff.1 h
    obtain ⟨b, hb⟩ := Option.ne_none_iff_exists'.1 (hsome p hfit.mem)
    have hbOk := ha p hfit.mem b hb
    simp only [hb, Option.getD_some] at hcap ⊢
    exact ⟨hbOk.1, hbOk.2, hcap, hsome, .inr ⟨p, hp, hb, hfit⟩⟩
  case h_2 =>
    obtain ⟨rfl, hcap⟩ := gate_eq_some_iff.1 h
    have hmax : ∀ p ∈ cand, top sizes address p ≤ maxTop sizes address (-2 ^ 63) cand :=
      (maxTop_le_iff.1 le_rfl).2
    obtain ⟨p, hp⟩ := exists_mem_of_ne_nil cand hnil
    have hle := le_alignUp hal ((htop p hp).trans (hmax p hp))
    exact ⟨((htop p hp).trans (hmax p hp)).trans hle, dvd_alignUp _, hcap, hsome,
      .inl fun q hq => (hmax q hq).trans hle⟩

end Rule

/-! ## Placing a whole permutation -/

/-- Addresses, quality and number of placed buffers. -/
@[ext] structure Layout where
  address : ℕ → Option ℤ
  quality : ℚ
  allocated : ℕ

/-- Nothing placed. -/
def Layout.empty : Layout :=
  ⟨fun _ => none, 0, 0⟩

section Build

variable (st : StaticData) (sizes : ℕ → ℤ) (eligible : ℕ → Bool)

/-- The earlier eligible buffers live at the same time as `idx`. -/
def candidates (prior : List ℕ) (idx : ℕ) : List ℕ :=
  prior.filter fun p => overlaps st idx p && eligible p

/-- Where `idx` goes after the buffers `prior`; an ineligible buffer goes nowhere. -/
def decideOne (prior : List ℕ) (idx : ℕ) (L : Layout) : Option ℤ :=
  if eligible idx then placeDecision st sizes L.address idx (candidates st eligible prior idx)
  else none

/-- Record a decision. -/
def Layout.put (idx : ℕ) (L : Layout) : Option ℤ → Layout
  | some a =>
    ⟨Function.update L.address idx (some a), L.quality + st.weight idx * sizes idx,
      L.allocated + 1⟩
  | none => L

/-- Place `idx` after the buffers `prior`. -/
def placeOne (prior : List ℕ) (idx : ℕ) (L : Layout) : Layout :=
  L.put st sizes idx (decideOne st sizes eligible prior idx L)

/-- Place the buffers of a list, in order, after the buffers `prior`. -/
def buildFrom : List ℕ → List ℕ → Layout → Layout
  | _, [], L => L
  | prior, idx :: rest, L =>
    buildFrom (prior ++ [idx]) rest (placeOne st sizes eligible prior idx L)

/-- The layout a permutation stands for. -/
def build (permutation : List ℕ) : Layout :=
  buildFrom st sizes eligible [] permutation Layout.empty

variable {st sizes eligible}

variable {L : Layout} {prior prior' : List ℕ} {st' : StaticData} {idx j p x y : ℕ} {sizes' : ℕ → ℤ}
  {a b : ℤ}

theorem mem_candidates :
    p ∈ candidates st eligible prior idx ↔
      p ∈ prior ∧ overlaps st idx p = true ∧ eligible p = true := by
  simp [candidates]

theorem placeOne_of_not_eligible (h : ¬eligible idx = true) (L : Layout) :
    placeOne st sizes eligible prior idx L = L := by
  rw [placeOne, decideOne, if_neg h, Layout.put]

theorem Layout.put_address_of_ne (h : p ≠ idx) (d : Option ℤ) :
    (L.put st sizes idx d).address p = L.address p := by
  cases d with
  | none => rfl
  | some a => exact Function.update_of_ne h _ _

theorem Layout.put_comm (h : x ≠ y) (d e : Option ℤ) :
    (L.put st sizes x d).put st sizes y e = (L.put st sizes y e).put st sizes x d := by
  cases d with
  | none => rfl
  | some a =>
    cases e with
    | none => rfl
    | some b =>
      ext1
      · exact Function.update_comm h _ _ _
      · exact add_right_comm _ _ _
      · rfl

theorem buildFrom_append (prior l l' : List ℕ) (L : Layout) :
    buildFrom st sizes eligible prior (l ++ l') L =
      buildFrom st sizes eligible (prior ++ l) l' (buildFrom st sizes eligible prior l L) := by
  induction l generalizing prior L with
  | nil => simp [buildFrom]
  | cons idx l ih => simp [buildFrom, ih]

theorem candidates_filter (prior : List ℕ) (idx : ℕ) :
    candidates st eligible (prior.filter eligible) idx = candidates st eligible prior idx := by
  simp only [candidates, filter_filter, Bool.and_assoc, Bool.and_self]

theorem buildFrom_filter (prior l : List ℕ) (L : Layout) :
    buildFrom st sizes eligible prior l L =
      buildFrom st sizes eligible (prior.filter eligible) (l.filter eligible) L := by
  induction l generalizing prior L with
  | nil => rfl
  | cons idx l ih =>
    by_cases h : eligible idx = true
    · rw [filter_cons_of_pos h, buildFrom, buildFrom, ih, filter_append, filter_singleton, h]
      simp only [cond_true, placeOne, decideOne, candidates_filter]
    · rw [filter_cons_of_neg h, buildFrom, ih, placeOne_of_not_eligible h,
        filter_append, filter_cons_of_neg h, filter_nil, append_nil]

/-- An ineligible buffer is transparent : the layout depends on the order of the eligible
ones only. -/
theorem build_filter (l : List ℕ) :
    build st sizes eligible l = build st sizes eligible (l.filter eligible) :=
  buildFrom_filter [] l Layout.empty

theorem placeOne_congr (hr : SameRule st st') (hnn : ∀ i, 0 ≤ sizes i)
    (hs : ∀ i, eligible i = true → sizes i = sizes' i) (hp : ∀ p, p ∈ prior ↔ p ∈ prior') (idx : ℕ)
    (L : Layout) :
    placeOne st sizes eligible prior idx L = placeOne st' sizes' eligible prior' idx L := by
  by_cases he : eligible idx = true
  · have hov : ∀ p, overlaps st idx p = overlaps st' idx p := by
      intro p
      rw [overlaps, overlaps, hr.start, hr.stop]
    have hv : SameView sizes sizes' L.address L.address idx (candidates st eligible prior idx)
        (candidates st' eligible prior' idx) :=
      ⟨fun p => by rw [mem_candidates, mem_candidates, hp, hov], hs idx he,
        fun p hp => hs p (mem_candidates.1 hp).2.2, fun _ _ => rfl⟩
    rw [placeOne, placeOne, decideOne, decideOne, placeDecision_congr hr hv fun p _ => hnn p]
    unfold Layout.put
    rw [hs idx he, hr.weight]
  · rw [placeOne_of_not_eligible he, placeOne_of_not_eligible he]

/-- The layout depends on the sizes of the eligible buffers only, and reads the earlier
buffers and the in-place partners as sets. -/
theorem buildFrom_congr (hr : SameRule st st') (hnn : ∀ i, 0 ≤ sizes i)
    (hs : ∀ i, eligible i = true → sizes i = sizes' i) (hp : ∀ p, p ∈ prior ↔ p ∈ prior')
    (l : List ℕ) (L : Layout) :
    buildFrom st sizes eligible prior l L = buildFrom st' sizes' eligible prior' l L := by
  induction l generalizing prior prior' L with
  | nil => rfl
  | cons idx l ih =>
    rw [buildFrom, buildFrom, placeOne_congr hr hnn hs hp]
    exact ih (fun p => by simp [hp p]) _

/-- A buffer that is never live with `y` does not change where `y` goes. -/
theorem decideOne_put (hnn : ∀ i, 0 ≤ sizes i) (h : ¬overlaps st y x = true) (prior : List ℕ)
    (L : Layout) (d : Option ℤ) :
    decideOne st sizes eligible (prior ++ [x]) y (L.put st sizes x d) =
      decideOne st sizes eligible prior y L := by
  have hmem : ∀ p, p ∈ candidates st eligible (prior ++ [x]) y ↔
      p ∈ candidates st eligible prior y := by
    intro p
    simp only [mem_candidates, mem_append, mem_singleton]
    constructor
    · rintro ⟨hp | rfl, hov, he⟩
      · exact ⟨hp, hov, he⟩
      · exact absurd hov h
    · rintro ⟨hp, hov, he⟩
      exact ⟨.inl hp, hov, he⟩
  unfold decideOne
  refine if_congr Iff.rfl (placeDecision_congr (SameRule.refl st)
    ⟨hmem, rfl, fun _ _ => rfl, fun p hp => ?_⟩ fun p _ => hnn p) rfl
  refine Layout.put_address_of_ne ?_ d
  rintro rfl
  exact h (mem_candidates.1 hp).2.1

theorem overlaps_comm (x y : ℕ) : overlaps st x y = overlaps st y x :=
  Bool.and_comm _ _

/-- Two neighbours that are never live together commute. -/
theorem buildFrom_swap (hnn : ∀ i, 0 ≤ sizes i) (hxy : x ≠ y) (h : ¬overlaps st x y = true)
    (prior l : List ℕ) (L : Layout) :
    buildFrom st sizes eligible prior (x :: y :: l) L =
      buildFrom st sizes eligible prior (y :: x :: l) L := by
  have hyx : ¬overlaps st y x = true := by rwa [overlaps_comm]
  simp only [buildFrom, placeOne, decideOne_put hnn hyx, decideOne_put hnn h]
  rw [Layout.put_comm hxy]
  refine buildFrom_congr (SameRule.refl st) hnn (fun _ _ => rfl) (fun p => ?_) _ _
  simp only [append_assoc, mem_append, mem_singleton]
  tauto

/-! ## Safety -/

/-- Two buffers at `a` and `b` occupy disjoint addresses, or the child of a declared
in-place pair sits on its parent, no larger than it. -/
def Apart (st : StaticData) (sizes : ℕ → ℤ) (i j : ℕ) (a b : ℤ) : Prop :=
  a + sizes i ≤ b ∨ b + sizes j ≤ a ∨
    a = b ∧ (j ∈ st.declaredParents i ∧ sizes i ≤ sizes j ∨
      i ∈ st.declaredParents j ∧ sizes j ≤ sizes i)

theorem Apart.symm {i : ℕ} (h : Apart st sizes i j a b) : Apart st sizes j i b a := by
  obtain h | h | ⟨rfl, h⟩ := h
  · exact .inr (.inl h)
  · exact .inl h
  · exact .inr (.inr ⟨rfl, h.symm⟩)

/-- A layout of the buffers `prior` in which no live buffer is overwritten. -/
structure Safe (st : StaticData) (sizes : ℕ → ℤ) (eligible : ℕ → Bool) (prior : List ℕ)
    (L : Layout) : Prop where
  mem : ∀ i a, L.address i = some a → i ∈ prior
  eligible : ∀ i a, L.address i = some a → eligible i = true
  bounds : ∀ i a, L.address i = some a →
    0 ≤ a ∧ st.alignment ∣ a ∧ a + sizes i ≤ st.capacity
  apart : ∀ i j a b, i ≠ j → L.address i = some a → L.address j = some b →
    overlaps st i j = true → Apart st sizes i j a b

theorem Safe.empty : Safe st sizes eligible [] Layout.empty :=
  ⟨by simp [Layout.empty], by simp [Layout.empty], by simp [Layout.empty],
    by simp [Layout.empty]⟩

theorem Safe.address_of_notMem (h : Safe st sizes eligible prior L) (hidx : idx ∉ prior) :
    L.address idx = none :=
  Option.eq_none_iff_forall_ne_some.2 fun a ha => hidx (h.mem idx a ha)

/-- The alignment is positive and a partner is a declared parent or a declared child. -/
structure RuleOk (st : StaticData) : Prop where
  alignment_pos : 0 < st.alignment
  partner : ∀ i j, j ∈ st.inplacePartners i →
    j ∈ st.declaredParents i ∨ i ∈ st.declaredParents j

/-- A placed buffer is apart from every candidate. -/
theorem Placed.apart {address : ℕ → Option ℤ} {cand : List ℕ} (hst : RuleOk st)
    (h : Placed st sizes address idx cand a) (hj : j ∈ cand) (hb : address j = some b) :
    Apart st sizes idx j a b := by
  have htop : top sizes address j = b + sizes j := by simp [top, hb]
  obtain hclear | ⟨partner, hp, hpa, hfit⟩ := h.clear
  · exact .inr (.inl (htop ▸ hclear j hj))
  · by_cases hjp : j = partner
    · subst hjp
      have hab : a = b := Option.some.inj (hpa.symm.trans hb)
      have hsize := hfit.fits
      unfold inPlacePair at hsize
      refine .inr (.inr ⟨hab, ?_⟩)
      split at hsize
      · exact .inl ⟨‹_›, hsize⟩
      · exact .inr ⟨(hst.partner idx j hp).resolve_left ‹_›, hsize⟩
    · have := hfit.others j hj hjp
      rw [htop, hpa, Option.getD_some] at this
      exact .inr (.inl this)

theorem Safe.placeOne (hst : RuleOk st) (hnn : ∀ i, 0 ≤ sizes i)
    (h : Safe st sizes eligible prior L) (idx : ℕ) :
    Safe st sizes eligible (prior ++ [idx]) (placeOne st sizes eligible prior idx L) := by
  unfold PermLayout.placeOne
  cases hd : decideOne st sizes eligible prior idx L with
  | none => exact ⟨fun i a hi => by simp [h.mem i a hi], h.eligible, h.bounds, h.apart⟩
  | some c =>
    have he : eligible idx = true := by
      by_contra hne
      simp [decideOne, hne] at hd
    rw [decideOne, if_pos he] at hd
    have hp := Placed.of_placeDecision hst.alignment_pos (fun p _ => hnn p)
      (fun p _ a ha => ⟨(h.bounds p a ha).1, (h.bounds p a ha).2.1⟩) hd
    have hself : ∀ a, (L.put st sizes idx (some c)).address idx = some a → c = a := by
      intro a ha
      simpa [Layout.put] using ha
    have hcases : ∀ i a, (L.put st sizes idx (some c)).address i = some a →
        i = idx ∧ c = a ∨ i ≠ idx ∧ L.address i = some a := by
      intro i a ha
      by_cases hi : i = idx
      · subst hi
        exact .inl ⟨rfl, hself a ha⟩
      · exact .inr ⟨hi, by rwa [Layout.put_address_of_ne hi] at ha⟩
    have hcand : ∀ j b, L.address j = some b → overlaps st idx j = true →
        Apart st sizes idx j c b := fun j b hb hov =>
      hp.apart hst (mem_candidates.2 ⟨h.mem j b hb, hov, h.eligible j b hb⟩) hb
    refine ⟨fun i a hi => ?_, fun i a hi => ?_, fun i a hi => ?_, fun i j a b hij hi hj hov => ?_⟩
    · obtain ⟨rfl, -⟩ | ⟨-, hi⟩ := hcases i a hi
      · simp
      · simp [h.mem i a hi]
    · obtain ⟨rfl, -⟩ | ⟨-, hi⟩ := hcases i a hi
      · exact he
      · exact h.eligible i a hi
    · obtain ⟨rfl, rfl⟩ | ⟨-, hi⟩ := hcases i a hi
      · exact ⟨hp.nonneg, hp.aligned, hp.fits⟩
      · exact h.bounds i a hi
    · obtain ⟨rfl, rfl⟩ | ⟨-, hi'⟩ := hcases i a hi
      · obtain ⟨rfl, -⟩ | ⟨-, hj'⟩ := hcases j b hj
        · exact absurd rfl hij
        · exact hcand j b hj' hov
      · obtain ⟨rfl, rfl⟩ | ⟨-, hj'⟩ := hcases j b hj
        · rw [overlaps_comm] at hov
          exact (hcand i a hi' hov).symm
        · exact h.apart i j a b hij hi' hj' hov

theorem Safe.buildFrom (hst : RuleOk st) (hnn : ∀ i, 0 ≤ sizes i)
    (h : Safe st sizes eligible prior L) (l : List ℕ) :
    Safe st sizes eligible (prior ++ l) (buildFrom st sizes eligible prior l L) := by
  induction l generalizing prior L with
  | nil => simpa [PermLayout.buildFrom] using h
  | cons idx l ih => simpa [PermLayout.buildFrom] using ih (h.placeOne hst hnn idx)

/-- Every layout built from scratch is safe. -/
theorem Safe.build (hst : RuleOk st) (hnn : ∀ i, 0 ≤ sizes i) (permutation : List ℕ) :
    Safe st sizes eligible permutation (build st sizes eligible permutation) :=
  Safe.buildFrom hst hnn Safe.empty permutation

theorem allocated_placeOne (hidx : idx ∉ prior) (hnone : L.address idx = none)
    (h : L.allocated = prior.countP fun i => (L.address i).isSome) :
    (placeOne st sizes eligible prior idx L).allocated = (prior ++ [idx]).countP fun i =>
      ((placeOne st sizes eligible prior idx L).address i).isSome := by
  unfold PermLayout.placeOne
  rw [countP_append, countP_singleton]
  cases decideOne st sizes eligible prior idx L with
  | none =>
    simp only [Layout.put, hnone]
    exact h
  | some a =>
    have hprior : prior.countP (fun i => ((L.put st sizes idx (some a)).address i).isSome) =
        prior.countP fun i => (L.address i).isSome := by
      refine countP_congr fun i hi => ?_
      rw [Layout.put_address_of_ne (ne_of_mem_of_not_mem hi hidx)]
    rw [hprior, ← h]
    simp [Layout.put]

theorem Safe.allocated_buildFrom (hst : RuleOk st) (hnn : ∀ i, 0 ≤ sizes i) {l : List ℕ}
    (hsafe : Safe st sizes eligible prior L) (hnodup : (prior ++ l).Nodup)
    (h : L.allocated = prior.countP fun i => (L.address i).isSome) :
    (PermLayout.buildFrom st sizes eligible prior l L).allocated = (prior ++ l).countP fun i =>
      ((PermLayout.buildFrom st sizes eligible prior l L).address i).isSome := by
  induction l generalizing prior L with
  | nil => simpa [PermLayout.buildFrom] using h
  | cons idx l ih =>
    have hidx : idx ∉ prior := fun hmem =>
      (nodup_append.1 hnodup).2.2 idx hmem idx mem_cons_self rfl
    rw [append_cons] at hnodup ⊢
    exact ih (hsafe.placeOne hst hnn idx) hnodup
      (allocated_placeOne hidx (hsafe.address_of_notMem hidx) h)

/-- The number of placed buffers of a layout built from scratch. -/
theorem allocated_build (hst : RuleOk st) (hnn : ∀ i, 0 ≤ sizes i) {permutation : List ℕ}
    (hnodup : permutation.Nodup) :
    (build st sizes eligible permutation).allocated = permutation.countP fun i =>
      ((build st sizes eligible permutation).address i).isSome :=
  Safe.empty.allocated_buildFrom hst hnn hnodup rfl

end Build

end PermLayout

end TorchSpyre
