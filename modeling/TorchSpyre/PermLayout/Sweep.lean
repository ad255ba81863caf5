import Mathlib
import TorchSpyre.PermLayout.Build

/-!
# The pass with its shortcuts computes the layout

`recomputeAll` does not gather candidates for a buffer without in-place partners : it reads
the highest top and the presence of an evicted buffer off the intervals the buffer is live
on. And it stops once every interval is saturated, evicting all that is left. Both are
right because the aggregates say, interval by interval, what the buffers placed so far
did (`Tracks`), and two lifetimes meet exactly when they share an interval
(`IntervalsOk.meet`). `LayoutOk.recomputeAll` is the result.
-/

open List Function

namespace TorchSpyre

namespace PermLayout

/-- What the interval data say of the lifetimes. -/
structure IntervalsOk (st : StaticData) : Prop where
  bound : ∀ i < st.n, ∀ t ∈ liveIntervals st i, t < st.numIntervals
  meet : ∀ i < st.n, ∀ j < st.n,
    (∃ t, t ∈ liveIntervals st i ∧ t ∈ liveIntervals st j) ↔ overlaps st i j = true
  live : ∀ i < st.n, overlaps st i i = true
  total : ∀ t, st.totalAt t = (List.range st.n).countP fun i => decide (t ∈ liveIntervals st i)
  overlap : ∀ i < st.n, ∀ w, w ∈ st.overlap i ↔ w < st.n ∧ w ≠ i ∧ overlaps st i w = true

/-- The order is a permutation with its inverse, and no size is negative. -/
structure OrderOk (s : Solver) : Prop where
  perm : s.permutation.Perm (List.range s.st.n)
  position : ∀ k < s.permutation.length, s.position (s.permutation.getD k 0) = k
  nonneg : ∀ i, 0 ≤ s.sizes i

namespace OrderOk

variable {s : Solver} {prior rest : List ℕ}

theorem nodup (h : OrderOk s) : s.permutation.Nodup :=
  h.perm.nodup_iff.2 nodup_range

theorem mem_iff (h : OrderOk s) {i : ℕ} : i ∈ s.permutation ↔ i < s.st.n := by
  rw [h.perm.mem_iff, mem_range]

theorem getD_lt (h : OrderOk s) {k : ℕ} (hk : k < s.permutation.length) :
    s.permutation.getD k 0 < s.st.n := by
  rw [getD_eq_getElem _ _ hk]
  exact h.mem_iff.1 (getElem_mem hk)

theorem notMem_prior (h : OrderOk s) {idx : ℕ} (hp : s.permutation = prior ++ idx :: rest) :
    idx ∉ prior := fun hmem =>
  disjoint_of_nodup_append (hp ▸ h.nodup) hmem mem_cons_self

/-- Being before a position is being among the entries before it. -/
theorem position_lt_iff (h : OrderOk s) (hp : s.permutation = prior ++ rest) {w : ℕ}
    (hw : w < s.st.n) : s.position w < prior.length ↔ w ∈ prior := by
  obtain ⟨k, hk, rfl⟩ := getElem_of_mem (h.mem_iff.2 hw)
  have hpos : s.position s.permutation[k] = k := by
    have := h.position k hk
    rwa [getD_eq_getElem _ _ hk] at this
  rw [hpos]
  constructor
  · intro hlt
    have : s.permutation[k] = prior[k] := by
      simp only [hp]
      exact getElem_append_left hlt
    rw [this]
    exact getElem_mem hlt
  · intro hmem
    obtain ⟨k', hk', heq⟩ := getElem_of_mem hmem
    have hk'' : k' < s.permutation.length := by
      rw [hp, length_append]
      omega
    have : s.permutation[k'] = s.permutation[k] := by
      rw [← heq]
      simp only [hp]
      exact getElem_append_left hk'
    rwa [← (List.Nodup.getElem_inj_iff h.nodup).1 this]

end OrderOk

/-! ## Committing a buffer to its intervals -/

theorem nodup_liveIntervals (st : StaticData) (idx : ℕ) : (liveIntervals st idx).Nodup :=
  Timeline.nodup_cover _

section Commit

variable {st : StaticData} {setNone : Bool} {tp : ℤ}

/-- An interval is done once it holds an evicted buffer or all its buffers have been seen,
and the open intervals are counted. -/
structure DoneOk (st : StaticData) (sw : Sweep) : Prop where
  done : ∀ t, sw.doneAt t = true ↔ sw.hasNoneAt t = true ∨ st.totalAt t ≤ sw.placedAt t
  notDone : sw.notDone = (List.range st.numIntervals).countP fun t => !sw.doneAt t

theorem commit_frame (st : StaticData) (setNone : Bool) (tp : ℤ) (l : List ℕ) (sw : Sweep) :
    (l.foldl (commitAt st setNone tp) sw).address = sw.address ∧
      (l.foldl (commitAt st setNone tp) sw).totalQuality = sw.totalQuality ∧
      (l.foldl (commitAt st setNone tp) sw).totalAllocatedCount = sw.totalAllocatedCount := by
  induction l generalizing sw with
  | nil => exact ⟨rfl, rfl, rfl⟩
  | cons u l ih => exact ih (commitAt st setNone tp sw u)

variable {l : List ℕ} {sw : Sweep}

theorem commit_placedAt (hl : l.Nodup) (sw : Sweep) (t : ℕ) :
    (l.foldl (commitAt st setNone tp) sw).placedAt t =
      sw.placedAt t + if t ∈ l then 1 else 0 := by
  induction l generalizing sw with
  | nil => simp
  | cons u l ih =>
    obtain ⟨hu, hl⟩ := nodup_cons.1 hl
    rw [foldl_cons, ih hl]
    by_cases ht : t = u
    · subst ht
      simp [commitAt, hu]
    · simp [commitAt, ht]

theorem commit_hasNoneAt (l : List ℕ) (sw : Sweep) (t : ℕ) :
    (l.foldl (commitAt st setNone tp) sw).hasNoneAt t = true ↔
      setNone = true ∧ t ∈ l ∨ sw.hasNoneAt t = true := by
  induction l generalizing sw with
  | nil => simp
  | cons u l ih =>
    rw [foldl_cons, ih]
    by_cases ht : t = u
    · subst ht
      simp [commitAt]
      tauto
    · simp [commitAt, ht]

theorem commit_maxTopAt (l : List ℕ) (sw : Sweep) (t : ℕ) (m : ℤ) :
    (l.foldl (commitAt st setNone tp) sw).maxTopAt t ≤ m ↔
      sw.maxTopAt t ≤ m ∧ (setNone = false → t ∈ l → tp ≤ m) := by
  induction l generalizing sw with
  | nil => simp
  | cons u l ih =>
    rw [foldl_cons, ih]
    by_cases ht : t = u
    · subst ht
      cases setNone with
      | true => simp [commitAt]
      | false =>
        simp only [commitAt, update_self, Bool.not_false, Bool.true_and,
          decide_eq_true_eq, forall_const, mem_cons, true_or]
        split_ifs with hlt
        · exact ⟨fun h => ⟨hlt.le.trans h.1, h.1⟩, fun h => ⟨h.2, fun _ => h.2⟩⟩
        · exact ⟨fun h => ⟨h.1, (not_lt.1 hlt).trans h.1⟩, fun h => ⟨h.1, fun _ => h.2⟩⟩
    · simp [commitAt, ht]

theorem countP_update_of_lt {k u : ℕ} (hu : u < k) {f : ℕ → Bool} (hf : f u = true) :
    (List.range k).countP (Function.update f u false) + 1 = (List.range k).countP f := by
  induction k with
  | zero => omega
  | succ k ih =>
    rw [range_succ, countP_append, countP_append]
    by_cases huk : u = k
    · subst huk
      have hsame : (List.range u).countP (Function.update f u false) =
          (List.range u).countP f := by
        refine countP_congr fun t ht => ?_
        rw [update_of_ne (mem_range.1 ht).ne]
      simp [hsame, hf]
    · have := ih (by omega)
      simp only [countP_singleton, update_of_ne (Ne.symm huk)]
      omega

theorem DoneOk.commitAt (h : DoneOk st sw) {t : ℕ} (ht : t < st.numIntervals) :
    DoneOk st (commitAt st setNone tp sw t) := by
  have hdone := h.done t
  constructor
  · intro u
    by_cases hu : u = t
    · subst hu
      have htotal : st.totalAt u ≤ sw.placedAt u + 1 ↔
          st.totalAt u ≤ sw.placedAt u ∨ sw.placedAt u + 1 = st.totalAt u := by omega
      simp only [PermLayout.commitAt, update_self, htotal, Bool.or_eq_true,
        Bool.and_eq_true, Bool.not_eq_true', decide_eq_true_eq]
      cases hd : sw.doneAt u with
      | true =>
        have hor := hdone.1 hd
        simp only [or_true, true_iff]
        tauto
      | false =>
        have hnone : ¬(sw.hasNoneAt u = true ∨ st.totalAt u ≤ sw.placedAt u) :=
          fun hc => by simp [hdone.2 hc] at hd
        tauto
    · simpa [PermLayout.commitAt, hu] using h.done u
  · simp only [PermLayout.commitAt]
    split_ifs with hf
    · have hopen : sw.doneAt t = false := by simpa using (Bool.and_eq_true_iff.1 hf).1
      have hcount := countP_update_of_lt (f := fun u => !sw.doneAt u) ht (by simp [hopen])
      have hfun : (fun u => !Function.update sw.doneAt t true u) =
          Function.update (fun u => !sw.doneAt u) t false := by
        funext u
        by_cases hu : u = t
        · subst hu
          simp
        · simp [hu]
      rw [hf, Bool.true_or, hfun, h.notDone]
      omega
    · rw [Bool.eq_false_iff.2 hf, Bool.false_or, update_eq_self]
      exact h.notDone

theorem DoneOk.commit (hl : ∀ t ∈ l, t < st.numIntervals) (h : DoneOk st sw) :
    DoneOk st (l.foldl (PermLayout.commitAt st setNone tp) sw) :=
  List.foldlRecOn (motive := DoneOk st) l _ h fun _ hsw t ht => hsw.commitAt (hl t ht)

end Commit

/-! ## What the aggregates say -/

/-- The pass has placed the buffers `prior` as the layout `L` does, and its aggregates
describe `L` interval by interval. -/
structure Tracks (s : Solver) (prior : List ℕ) (L : Layout) (sw : Sweep) : Prop where
  address : ∀ p ∈ prior, sw.address p = L.address p
  quality : sw.totalQuality = L.quality
  allocated : sw.totalAllocatedCount = L.allocated
  placed : ∀ t, sw.placedAt t = prior.countP fun p => decide (t ∈ liveIntervals s.st p)
  hasNone : ∀ t, sw.hasNoneAt t = true ↔
    ∃ p ∈ prior, s.eligible p = true ∧ L.address p = none ∧ t ∈ liveIntervals s.st p
  maxTop : ∀ t m, sw.maxTopAt t ≤ m ↔ 0 ≤ m ∧
    ∀ p ∈ prior, L.address p ≠ none → t ∈ liveIntervals s.st p → top s.sizes L.address p ≤ m
  done : DoneOk s.st sw

variable {cand l : List ℕ} {s : Solver} {st : StaticData} {sw : Sweep} {idx p : ℕ}
  {address : ℕ → Option ℤ} {sizes : ℕ → ℤ} {m : ℤ}

theorem Tracks.init (hi : IntervalsOk s.st) :
    Tracks s [] Layout.empty (initIntervals s) := by
  refine ⟨by simp, rfl, rfl, by simp [initIntervals], by simp [initIntervals],
    by simp [initIntervals], ⟨fun t => ?_, ?_⟩⟩
  · have := hi.total t
    simp only [initIntervals, decide_eq_true_eq, Bool.false_eq_true, false_or]
    omega
  · simp [initIntervals, countP_eq_length_filter]

theorem scanIntervals_eq_none_iff :
    scanIntervals sw l m = none ↔ ∃ t ∈ l, sw.hasNoneAt t = true := by
  induction l generalizing m with
  | nil => simp [scanIntervals]
  | cons t l ih =>
    rw [scanIntervals]
    split_ifs with h
    · simp [h]
    · rw [ih]
      simp [h]
    · rw [ih]
      simp [h]

theorem le_of_scanIntervals {m' : ℤ} (h : scanIntervals sw l m = some m') (x : ℤ) :
    m' ≤ x ↔ m ≤ x ∧ ∀ t ∈ l, sw.maxTopAt t ≤ x := by
  induction l generalizing m with
  | nil =>
    obtain rfl := Option.some.inj h
    simp
  | cons t l ih =>
    rw [scanIntervals] at h
    split_ifs at h with hn hlt
    · rw [ih h, forall_mem_cons]
      exact ⟨fun hx => ⟨hlt.le.trans hx.1, hx⟩, fun hx => hx.2⟩
    · rw [ih h, forall_mem_cons]
      exact ⟨fun hx => ⟨hx.1, (not_lt.1 hlt).trans hx.1, hx.2⟩, fun hx => ⟨hx.1, hx.2.2⟩⟩

theorem placeDecision_of_evicted (hp : p ∈ cand) (h : address p = none) :
    placeDecision st sizes address idx cand = none := by
  unfold placeDecision
  rw [if_neg (ne_nil_of_mem hp), if_pos (any_isNone_iff.2 ⟨p, hp, h⟩)]

/-- Without partners the rule needs the highest top of the candidates only. -/
theorem placeDecision_of_max (hal : 0 < st.alignment) (hnil : st.inplacePartners idx = [])
    (hplaced : ∀ p ∈ cand, address p ≠ none) (htop : ∀ p ∈ cand, 0 ≤ top sizes address p)
    (hmax : ∀ x, m ≤ x ↔ 0 ≤ x ∧ ∀ p ∈ cand, top sizes address p ≤ x) :
    placeDecision st sizes address idx cand = gate st sizes idx (alignUp st m) := by
  unfold placeDecision
  split_ifs with hc hany
  · subst hc
    have hm : m = 0 := eq_of_forall_ge_iff fun x => by simpa using hmax x
    rw [hm, alignUp_zero hal]
  · obtain ⟨p, hp, hnone⟩ := any_isNone_iff.1 hany
    exact absurd hnone (hplaced p hp)
  · obtain ⟨p, hp⟩ := exists_mem_of_ne_nil _ hc
    have hm : maxTop sizes address (-2 ^ 63) cand = m := by
      refine eq_of_forall_ge_iff fun x => ?_
      rw [hmax, maxTop_le_iff]
      exact ⟨fun hx => ⟨(htop p hp).trans (hx.2 p hp), hx.2⟩, fun hx => ⟨by omega, hx.2⟩⟩
    rw [hnil, tryPartners, hm]

theorem Safe.top_nonneg {eligible : ℕ → Bool} {prior : List ℕ} {L : Layout}
    (h : Safe st sizes eligible prior L) (hnn : ∀ i, 0 ≤ sizes i) (hp : L.address p ≠ none) :
    0 ≤ top sizes L.address p := by
  obtain ⟨a, ha⟩ := Option.ne_none_iff_exists'.1 hp
  have := (h.bounds p a ha).1
  have := hnn p
  simp only [top, ha, Option.getD_some]
  omega

section Pass

variable {s : Solver} {prior rest : List ℕ} {idx : ℕ} {L : Layout} {sw : Sweep}

/-- The decision off the aggregates is the decision over the candidates. -/
theorem Tracks.decision_fast (hi : IntervalsOk s.st) (hst : RuleOk s.st) (ho : OrderOk s)
    (hprior : ∀ p ∈ prior, p < s.st.n) (hidx : idx < s.st.n)
    (hsafe : Safe s.st s.sizes s.eligible prior L) (h : Tracks s prior L sw)
    (hnil : s.st.inplacePartners idx = []) :
    decision s prior.length idx sw =
      placeDecision s.st s.sizes L.address idx (candidates s.st s.eligible prior idx) := by
  have hmeet : ∀ p ∈ prior, overlaps s.st idx p = true ↔
      ∃ t, t ∈ liveIntervals s.st idx ∧ t ∈ liveIntervals s.st p := fun p hp =>
    (hi.meet idx hidx p (hprior p hp)).symm
  rw [decision, if_pos hnil]
  cases hscan : scanIntervals sw (liveIntervals s.st idx) 0 with
  | none =>
    obtain ⟨t, ht, hn⟩ := scanIntervals_eq_none_iff.1 hscan
    obtain ⟨p, hp, he, hnone, htp⟩ := (h.hasNone t).1 hn
    exact (placeDecision_of_evicted
      (mem_candidates.2 ⟨hp, (hmeet p hp).2 ⟨t, ht, htp⟩, he⟩) hnone).symm
  | some m =>
    have hplaced : ∀ p ∈ candidates s.st s.eligible prior idx, L.address p ≠ none := by
      intro p hp hnone
      obtain ⟨hp, hov, he⟩ := mem_candidates.1 hp
      obtain ⟨t, ht, htp⟩ := (hmeet p hp).1 hov
      exact Option.some_ne_none m (hscan.symm.trans
        (scanIntervals_eq_none_iff.2 ⟨t, ht, (h.hasNone t).2 ⟨p, hp, he, hnone, htp⟩⟩))
    refine (placeDecision_of_max hst.alignment_pos hnil hplaced
      (fun p hp => hsafe.top_nonneg ho.nonneg (hplaced p hp)) fun x => ?_).symm
    rw [le_of_scanIntervals hscan]
    refine and_congr_right fun hx => ⟨fun hall p hp => ?_, fun hall t ht => ?_⟩
    · obtain ⟨hpp, hov, -⟩ := mem_candidates.1 hp
      obtain ⟨t, ht, htp⟩ := (hmeet p hpp).1 hov
      exact ((h.maxTop t x).1 (hall t ht)).2 p hpp (hplaced p hp) htp
    · refine (h.maxTop t x).2 ⟨hx, fun p hp hsome htp => hall p (mem_candidates.2 ⟨hp, ?_, ?_⟩)⟩
      · exact (hmeet p hp).2 ⟨t, ht, htp⟩
      · obtain ⟨a, ha⟩ := Option.ne_none_iff_exists'.1 hsome
        exact hsafe.eligible p a ha

/-- The gathered candidates are the candidates. -/
theorem mem_gatherCandidates (hi : IntervalsOk s.st) (ho : OrderOk s)
    (hp : s.permutation = prior ++ idx :: rest) {w : ℕ} :
    w ∈ gatherCandidates s idx prior.length ↔ w ∈ candidates s.st s.eligible prior idx := by
  have hidx : idx < s.st.n := ho.mem_iff.1 (by simp [hp])
  simp only [gatherCandidates, mem_filter, Bool.and_eq_true, decide_eq_true_eq,
    hi.overlap idx hidx, mem_candidates]
  constructor
  · rintro ⟨⟨hw, -, hov⟩, hpos, he⟩
    exact ⟨(ho.position_lt_iff hp hw).1 hpos, hov, he⟩
  · rintro ⟨hw, hov, he⟩
    have hwn : w < s.st.n := ho.mem_iff.1 (by simp [hp, hw])
    exact ⟨⟨hwn, fun h => ho.notMem_prior hp (h ▸ hw), hov⟩, (ho.position_lt_iff hp hwn).2 hw, he⟩

theorem Tracks.decision_eq (hi : IntervalsOk s.st) (hst : RuleOk s.st) (ho : OrderOk s)
    (hp : s.permutation = prior ++ idx :: rest) (hsafe : Safe s.st s.sizes s.eligible prior L)
    (h : Tracks s prior L sw) :
    decision s prior.length idx sw =
      placeDecision s.st s.sizes L.address idx (candidates s.st s.eligible prior idx) := by
  by_cases hnil : s.st.inplacePartners idx = []
  · refine h.decision_fast hi hst ho (fun p hpp => ?_) ?_ hsafe hnil
    · exact ho.mem_iff.1 (by simp [hp, hpp])
    · exact ho.mem_iff.1 (by simp [hp])
  · rw [decision, if_neg hnil]
    have hmem := fun w => mem_gatherCandidates (w := w) hi ho hp
    exact placeDecision_congr (SameRule.refl _) ⟨hmem, rfl, fun _ _ => rfl,
      fun p hpc => h.address p (mem_candidates.1 ((hmem p).1 hpc)).1⟩ fun p _ => ho.nonneg p

/-- Committing `idx` as the layout `L'` has it. -/
theorem Tracks.commit (hi : IntervalsOk s.st) (hidx : idx < s.st.n) (hnotin : idx ∉ prior)
    (h : Tracks s prior L sw) (L' : Layout) (setNone : Bool) (tp : ℤ)
    (hframe : ∀ p, p ≠ idx → L'.address p = L.address p)
    (hnone : setNone = true ↔ s.eligible idx = true ∧ L'.address idx = none)
    (htop : ∀ m, 0 ≤ m →
      ((setNone = false → tp ≤ m) ↔ (L'.address idx ≠ none → top s.sizes L'.address idx ≤ m))) :
    Tracks s (prior ++ [idx]) L'
      (commitIntervals s.st idx setNone tp
        { sw with
          address := Function.update sw.address idx (L'.address idx)
          totalQuality := L'.quality
          totalAllocatedCount := L'.allocated }) := by
  have hne : ∀ p ∈ prior, p ≠ idx := fun p hp hpi => hnotin (hpi ▸ hp)
  obtain ⟨ha, hq, hc⟩ := commit_frame s.st setNone tp (liveIntervals s.st idx)
    { sw with
      address := Function.update sw.address idx (L'.address idx)
      totalQuality := L'.quality
      totalAllocatedCount := L'.allocated }
  refine ⟨fun p hp => ?_, hq, hc, fun t => ?_, fun t => ?_, fun t m => ?_, ?_⟩
  · rw [commitIntervals, ha]
    rcases mem_append.1 hp with hp | hp
    · rw [hframe p (hne p hp), ← h.address p hp]
      exact update_of_ne (hne p hp) _ _
    · obtain rfl := mem_singleton.1 hp
      exact update_self _ _ _
  · rw [commitIntervals, commit_placedAt (nodup_liveIntervals s.st idx), h.placed, countP_append,
      countP_singleton]
    split_ifs <;> simp_all
  · rw [commitIntervals, commit_hasNoneAt, h.hasNone, hnone]
    simp only [mem_append, mem_singleton]
    constructor
    · rintro (⟨⟨he, hn⟩, ht⟩ | ⟨p, hp, he, hn, ht⟩)
      · exact ⟨idx, .inr rfl, he, hn, ht⟩
      · exact ⟨p, .inl hp, he, (hframe p (hne p hp)).trans hn, ht⟩
    · rintro ⟨p, hp | rfl, he, hn, ht⟩
      · exact .inr ⟨p, hp, he, (hframe p (hne p hp)).symm.trans hn, ht⟩
      · exact .inl ⟨⟨he, hn⟩, ht⟩
  · have htopEq : ∀ p ∈ prior, top s.sizes L'.address p = top s.sizes L.address p := by
      intro p hp
      rw [top, top, hframe p (hne p hp)]
    rw [commitIntervals, commit_maxTopAt, h.maxTop, and_assoc]
    refine and_congr_right fun hm => ?_
    simp only [mem_append, mem_singleton]
    constructor
    · rintro ⟨hold, hnew⟩ p (hp | rfl) hsome ht
      · rw [htopEq p hp]
        exact hold p hp (hframe p (hne p hp) ▸ hsome) ht
      · exact (htop m hm).1 (fun hn => hnew hn ht) hsome
    · intro hall
      refine ⟨fun p hp hsome ht => ?_, fun hn ht => ?_⟩
      · rw [← htopEq p hp]
        exact hall p (.inl hp) (hframe p (hne p hp) ▸ hsome) ht
      · exact (htop m hm).2 (fun hsome => hall idx (.inr rfl) hsome ht) hn
  · exact DoneOk.commit (hi.bound idx hidx) ⟨h.done.done, h.done.notDone⟩

/-- One iteration of the pass places one buffer of the layout. -/
theorem Tracks.step (hi : IntervalsOk s.st) (hst : RuleOk s.st) (ho : OrderOk s)
    (hp : s.permutation = prior ++ idx :: rest) (hsafe : Safe s.st s.sizes s.eligible prior L)
    (h : Tracks s prior L sw) :
    Tracks s (prior ++ [idx]) (placeOne s.st s.sizes s.eligible prior idx L)
      (placeStep s prior.length idx sw) := by
  have hidx : idx < s.st.n := ho.mem_iff.1 (by simp [hp])
  have hnotin := ho.notMem_prior hp
  have hnone := hsafe.address_of_notMem hnotin
  have hframe : ∀ d, ∀ p, p ≠ idx →
      (L.put s.st s.sizes idx d).address p = L.address p := fun d p hpi =>
    Layout.put_address_of_ne hpi d
  rw [placeOne, placeStep, decideOne]
  split_ifs with he
  · rw [h.decision_eq hi hst ho hp hsafe]
    cases hd : placeDecision s.st s.sizes L.address idx
        (candidates s.st s.eligible prior idx) with
    | some a =>
      have hself : (L.put s.st s.sizes idx (some a)).address idx = some a := by
        simp [Layout.put]
      have hcommit := h.commit hi hidx hnotin (L.put s.st s.sizes idx (some a)) false
        (a + s.sizes idx) (hframe _) (by simp [hself])
        (fun m _ => by simp [hself, top])
      simpa [hself, Layout.put, h.quality, h.allocated] using hcommit
    | none =>
      have hcommit := h.commit hi hidx hnotin L true (-1)
        (fun _ _ => rfl) (by simp [he, hnone]) (fun m _ => by simp [hnone])
      simpa [hnone, Layout.put, h.quality, h.allocated] using hcommit
  · have hcommit := h.commit hi hidx hnotin L false (-1)
      (fun _ _ => rfl) (by simp [he]) (fun m hm => by simp [hnone]; omega)
    simpa [hnone, Layout.put, h.quality, h.allocated] using hcommit

/-- A buffer that would rest on an evicted one changes nothing. -/
theorem placeOne_of_blocked {p : ℕ} (hp : p ∈ prior) (he : s.eligible p = true)
    (hnone : L.address p = none) (hov : overlaps s.st idx p = true) :
    placeOne s.st s.sizes s.eligible prior idx L = L := by
  by_cases hidx : s.eligible idx = true
  · rw [placeOne, decideOne, if_pos hidx,
      placeDecision_of_evicted (mem_candidates.2 ⟨hp, hov, he⟩) hnone, Layout.put]
  · exact placeOne_of_not_eligible hidx L

theorem buildFrom_of_blocked
    (h : ∀ i ∈ rest, s.eligible i = true →
      ∃ p ∈ prior, s.eligible p = true ∧ L.address p = none ∧ overlaps s.st i p = true) :
    buildFrom s.st s.sizes s.eligible prior rest L = L := by
  induction rest generalizing prior with
  | nil => rfl
  | cons i rest ih =>
    have hstep : placeOne s.st s.sizes s.eligible prior i L = L := by
      by_cases hi : s.eligible i = true
      · obtain ⟨p, hp, he, hnone, hov⟩ := h i (by simp) hi
        exact placeOne_of_blocked hp he hnone hov
      · exact placeOne_of_not_eligible hi L
    rw [buildFrom, hstep]
    refine ih fun j hj hje => ?_
    obtain ⟨p, hp, hpOk⟩ := h j (by simp [hj]) hje
    exact ⟨p, by simp [hp], hpOk⟩

/-- Once every interval is done, every eligible buffer that is left would rest on an
evicted one : an interval it is live on has not seen all its buffers. -/
theorem Tracks.blocked (hi : IntervalsOk s.st) (ho : OrderOk s) (hp : s.permutation = prior ++ rest)
    (h : Tracks s prior L sw) (hstop : sw.notDone = 0) (hidx : idx ∈ rest) :
    ∃ p ∈ prior, s.eligible p = true ∧ L.address p = none ∧ overlaps s.st idx p = true := by
  have hn : idx < s.st.n := ho.mem_iff.1 (by simp [hp, hidx])
  obtain ⟨t, ht, -⟩ := (hi.meet idx hn idx hn).2 (hi.live idx hn)
  have hdone : sw.doneAt t = true := by
    have hzero := h.done.notDone
    rw [hstop, eq_comm, Nat.cast_eq_zero, countP_eq_zero] at hzero
    simpa using hzero t (mem_range.2 (hi.bound idx hn t ht))
  have hseen : sw.placedAt t < s.st.totalAt t := by
    rw [h.placed, hi.total, ← ho.perm.countP_eq, hp, countP_append]
    have : 0 < rest.countP fun i => decide (t ∈ liveIntervals s.st i) :=
      countP_pos_iff.2 ⟨idx, hidx, by simpa using ht⟩
    omega
  have hnone := ((h.done.done t).1 hdone).resolve_right (by omega)
  obtain ⟨p, hpp, he, hpn, htp⟩ := (h.hasNone t).1 hnone
  have hpn' : p < s.st.n := ho.mem_iff.1 (by simp [hp, hpp])
  exact ⟨p, hpp, he, hpn, (hi.meet idx hn p hpn').1 ⟨t, ht, htp⟩⟩

theorem evictRest_apply (address : ℕ → Option ℤ) (l : List ℕ) (p : ℕ) :
    evictRest address l p = if p ∈ l then none else address p := by
  induction l generalizing address with
  | nil => simp [evictRest]
  | cons i l ih =>
    rw [evictRest, foldl_cons]
    refine (ih _).trans ?_
    by_cases hp : p = i
    · subst hp
      simp
    · simp [hp]

/-- The whole pass, early stop included. -/
theorem Tracks.recomputeFrom (hi : IntervalsOk s.st) (hst : RuleOk s.st) (ho : OrderOk s)
    (hp : s.permutation = prior ++ rest) (hsafe : Safe s.st s.sizes s.eligible prior L)
    (h : Tracks s prior L sw) :
    (∀ p ∈ s.permutation, (recomputeFrom s prior.length rest sw).address p =
        (buildFrom s.st s.sizes s.eligible prior rest L).address p) ∧
      (recomputeFrom s prior.length rest sw).totalQuality =
        (buildFrom s.st s.sizes s.eligible prior rest L).quality ∧
      (recomputeFrom s prior.length rest sw).totalAllocatedCount =
        (buildFrom s.st s.sizes s.eligible prior rest L).allocated := by
  induction rest generalizing prior L sw with
  | nil =>
    rw [append_nil] at hp
    exact ⟨fun p hpp => h.address p (hp ▸ hpp), h.quality, h.allocated⟩
  | cons idx rest ih =>
    rw [PermLayout.recomputeFrom]
    split_ifs with hstop
    · rw [buildFrom_of_blocked fun i hir _ => h.blocked hi ho hp hstop hir]
      refine ⟨fun p hpp => ?_, h.quality, h.allocated⟩
      refine (evictRest_apply sw.address _ p).trans ?_
      split_ifs with hpr
      · exact (hsafe.address_of_notMem fun hpp =>
          disjoint_of_nodup_append (hp ▸ ho.nodup) hpp hpr).symm
      · rw [hp, mem_append] at hpp
        exact h.address p (hpp.resolve_right hpr)
    · have := ih (by simpa using hp) (hsafe.placeOne hst ho.nonneg idx)
        (h.step hi hst ho hp hsafe)
      rwa [length_append, length_singleton] at this

end Pass

/-- The layout the state stands for. -/
def layoutOf (s : Solver) : Layout :=
  build s.st s.sizes s.eligible s.permutation

/-- The state holds the layout it stands for. -/
structure LayoutOk (s : Solver) : Prop where
  address : ∀ i < s.st.n, s.address i = (layoutOf s).address i
  quality : s.totalQuality = (layoutOf s).quality
  allocated : s.totalAllocatedCount = (layoutOf s).allocated

/-- Recomputing gives the layout the state stands for. -/
theorem LayoutOk.recomputeAll (hi : IntervalsOk s.st) (hst : RuleOk s.st) (ho : OrderOk s) :
    LayoutOk (recomputeAll s) := by
  obtain ⟨ha, hq, hc⟩ := (Tracks.init hi).recomputeFrom hi hst ho (nil_append _).symm Safe.empty
  exact ⟨fun i hn => ha i (ho.mem_iff.2 hn), hq, hc⟩

end PermLayout

end TorchSpyre
