import Mathlib
import TorchSpyre.Annealer.Moves
import TorchSpyre.Annealer.SplitSpace

/-!
# Trimming a flooded region

A recolor floods a division and its tiling over a region, and `_trim_tilings_to_anchor_run` then
takes the tiling from every operation outside the anchor's run, once. What makes one pass enough
is that the run only grows (`IsRun.grows`). Taking tilings away outside a run changes the stretch
it lies in, and with it where runs are cut. If the run is tiled its stretch can only shrink, so a
producer that an operation of the run misreads is one it misread before. If it is untiled,
nothing in it is cut at all.

An operation keeps its tiling outside the run when its source refuses the splits untiled. In a
flooded assignment every tiled config is a division of its operation's own space (`Held`), so
that a config that is not refused comes back untiled, with its splits.
-/

open List

namespace TorchSpyre

namespace Annealer

/-! ## The run of a position -/

section Runs

variable (misread : Misread) (bufs : List RunBuffer) (chosen : ℕ → TileSpec)

/-- A run from `lo`, up to position `at'`, in a stretch from `stretch`. -/
structure OpenRun (stretch lo at' : ℕ) : Prop where
  stretch_le : stretch ≤ lo
  le : lo ≤ at'
  nest : ∀ q, stretch ≤ q → q ≤ at' → nestAt bufs chosen q = nestAt bufs chosen at'
  start : ∀ q, q + 1 = stretch → nestAt bufs chosen q ≠ nestAt bufs chosen stretch
  left : lo = stretch ∨ breaksAt misread bufs chosen lo stretch = true
  inside : ∀ q, lo < q → q ≤ at' → breaksAt misread bufs chosen q stretch = false

/-- A run of `_runs`. -/
structure IsRun (stretch lo hi : ℕ) : Prop extends OpenRun misread bufs chosen stretch lo hi where
  lt : hi < nPositions bufs
  right : hi + 1 = nPositions bufs ∨ nestAt bufs chosen (hi + 1) ≠ nestAt bufs chosen hi ∨
    breaksAt misread bufs chosen (hi + 1) stretch = true

variable {misread bufs chosen} {stretch lo at' : ℕ}

theorem OpenRun.nest_succ (h : OpenRun misread bufs chosen stretch lo at')
    (hnest : nestAt bufs chosen (at' + 1) = nestAt bufs chosen at') (q : ℕ) (hq : stretch ≤ q)
    (hq' : q ≤ at' + 1) : nestAt bufs chosen q = nestAt bufs chosen (at' + 1) := by
  rcases Nat.le_succ_iff.1 hq' with hle | rfl
  · exact (h.nest q hq hle).trans hnest.symm
  · rfl

theorem OpenRun.extend (h : OpenRun misread bufs chosen stretch lo at')
    (hnest : nestAt bufs chosen (at' + 1) = nestAt bufs chosen at')
    (hbreak : breaksAt misread bufs chosen (at' + 1) stretch = false) :
    OpenRun misread bufs chosen stretch lo (at' + 1) where
  stretch_le := h.stretch_le
  le := h.le.trans (Nat.le_succ _)
  nest := h.nest_succ hnest
  start := h.start
  left := h.left
  inside q hq hq' := by
    rcases Nat.lt_or_eq_of_le hq' with hlt | rfl
    · exact h.inside q hq (by omega)
    · exact hbreak

/-- The next run of a stretch. -/
theorem OpenRun.cut (h : OpenRun misread bufs chosen stretch lo at')
    (hnest : nestAt bufs chosen (at' + 1) = nestAt bufs chosen at')
    (hbreak : breaksAt misread bufs chosen (at' + 1) stretch = true) :
    OpenRun misread bufs chosen stretch (at' + 1) (at' + 1) where
  stretch_le := h.stretch_le.trans (h.le.trans (Nat.le_succ _))
  le := le_rfl
  nest := h.nest_succ hnest
  start := h.start
  left := .inr hbreak
  inside q hq hq' := by omega

/-- The first run of a stretch. -/
theorem OpenRun.first (hstart : ∀ q, q + 1 = at' → nestAt bufs chosen q ≠ nestAt bufs chosen at') :
    OpenRun misread bufs chosen at' at' at' where
  stretch_le := le_rfl
  le := le_rfl
  nest q hq hq' := by rw [Nat.le_antisymm hq' hq]
  start := hstart
  left := .inl rfl
  inside q hq hq' := by omega

variable {p q : ℕ}

variable (misread bufs chosen) in
/-- The first run that ends at or after a position holds it. -/
def HoldsAt (p : ℕ) (rs : List (ℕ × ℕ)) : Prop :=
  ∃ s r, rs.find? (fun r => p ≤ r.2) = some r ∧ IsRun misread bufs chosen s r.1 r.2 ∧
    r.1 ≤ p ∧ p ≤ r.2

theorem holdsAt_tailRuns {k : ℕ} (h : OpenRun misread bufs chosen stretch lo at')
    (hk : at' + k + 1 = nPositions bufs) (hlo : lo ≤ p) (hp : p < nPositions bufs) :
    HoldsAt misread bufs chosen p (tailRuns misread bufs chosen k stretch lo at') := by
  induction k generalizing stretch lo at' with
  | zero =>
    have hpat : p ≤ at' := by omega
    exact ⟨stretch, (lo, at'), by simp [tailRuns, hpat], ⟨h, by dsimp only; omega, .inl hk⟩,
      hlo, hpat⟩
  | succ k ih =>
    -- The run ends at `at'`, and the position is in it or further on.
    have hends : ∀ rest, (nestAt bufs chosen (at' + 1) ≠ nestAt bufs chosen at' ∨
        breaksAt misread bufs chosen (at' + 1) stretch = true) →
        (at' + 1 ≤ p → HoldsAt misread bufs chosen p rest) →
        HoldsAt misread bufs chosen p ((lo, at') :: rest) := by
      intro rest hright hrest
      by_cases hpat : p ≤ at'
      · exact ⟨stretch, (lo, at'), by simp [hpat], ⟨h, by dsimp only; omega, .inr hright⟩,
          hlo, hpat⟩
      · obtain ⟨s, r, hr, hrun⟩ := hrest (by omega)
        exact ⟨s, r, by simpa [hpat] using hr, hrun⟩
    rw [tailRuns]
    by_cases hnest : nestAt bufs chosen (at' + 1) = nestAt bufs chosen at'
    · rw [if_pos hnest]
      by_cases hbreak : breaksAt misread bufs chosen (at' + 1) stretch = true
      · rw [if_pos hbreak]
        exact hends _ (.inr hbreak) fun hp' => ih (h.cut hnest hbreak) (by omega) hp'
      · rw [if_neg hbreak]
        exact ih (h.extend hnest (by simpa using hbreak)) (by omega) hlo
    · rw [if_neg hnest]
      refine hends _ (.inl hnest) fun hp' => ih (.first fun q hq => ?_) (by omega) hp'
      obtain rfl : q = at' := by omega
      exact Ne.symm hnest

theorem holdsAt_runs (hp : p < nPositions bufs) :
    HoldsAt misread bufs chosen p (runs misread bufs chosen) := by
  obtain ⟨k, hk⟩ : ∃ k, k + 1 = nPositions bufs := ⟨nPositions bufs - 1, by omega⟩
  rw [runs_eq_tailRuns hk]
  exact holdsAt_tailRuns (.first fun q hq => by omega) (by omega) (Nat.zero_le p) hp

/-! ## The run grows -/

/-- Only earlier positions are read. -/
theorem lt_of_mem_tileReadsAt {reader : ℕ} {r : ℕ × TileReads} (h : r ∈ tileReadsAt bufs reader) :
    r.1 < reader := by
  obtain ⟨b, -, -, read, -, -, hlt, -⟩ := mem_tileReadsAt.1 h
  exact hlt

theorem breaksAt_eq_true_iff {position : ℕ} :
    breaksAt misread bufs chosen position stretch = true ↔
      (tilingAt bufs chosen position).isUntiled = false ∧
        ∃ r ∈ tileReadsAt bufs position, stretch ≤ r.1 ∧
          r.2.aligned misread (tilingAt bufs chosen r.1) (tilingAt bufs chosen position) =
            false := by
  unfold breaksAt
  cases h : (tilingAt bufs chosen position).isUntiled with
  | true => simp [h]
  | false => simp [h]

variable {chosen' : ℕ → TileSpec} {hi stretch' lo' hi' : ℕ}

/-- `chosen'` has the tilings of `chosen` from `lo` to `hi`, and elsewhere those or none. -/
structure TrimmedOutside (bufs : List RunBuffer) (chosen chosen' : ℕ → TileSpec) (lo hi : ℕ) :
    Prop where
  same : ∀ q, lo ≤ q → q ≤ hi → tilingAt bufs chosen' q = tilingAt bufs chosen q
  rest : ∀ q, tilingAt bufs chosen' q = tilingAt bufs chosen q ∨
    (tilingAt bufs chosen' q).isUntiled = true

theorem TrimmedOutside.nest (h : TrimmedOutside bufs chosen chosen' lo hi) (hlo : lo ≤ q)
    (hhi : q ≤ hi) : nestAt bufs chosen' q = nestAt bufs chosen q := by
  unfold nestAt
  rw [h.same q hlo hhi]

theorem TrimmedOutside.eq_of_tiled (h : TrimmedOutside bufs chosen chosen' lo hi)
    (hq : nestAt bufs chosen' q ≠ []) : tilingAt bufs chosen' q = tilingAt bufs chosen q := by
  rcases h.rest q with heq | huntiled
  · exact heq
  · exact absurd (TileSpec.levelCounts_eq_nil_iff.2 huntiled) hq

/-- A position of the run that is cut after the trim was cut before. -/
theorem IsRun.breaksAt_of_trimmed (hrun : IsRun misread bufs chosen stretch lo hi)
    (h : TrimmedOutside bufs chosen chosen' lo hi) (hlo : lo < q) (hhi : q ≤ hi)
    (hnest : ∀ r, stretch' ≤ r → r < q → nestAt bufs chosen' r = nestAt bufs chosen' q)
    (hbreak : breaksAt misread bufs chosen' q stretch' = true) :
    breaksAt misread bufs chosen q stretch = true := by
  obtain ⟨htiled, r, hr, hle, haligned⟩ := breaksAt_eq_true_iff.1 hbreak
  have hlt := lt_of_mem_tileReadsAt hr
  have hq : nestAt bufs chosen' q ≠ [] := fun hnil => by
    rw [TileSpec.levelCounts_eq_nil_iff.1 hnil] at htiled
    exact nomatch htiled
  -- From the producer on, everything is tiled as it was.
  have hsame : ∀ x, r.1 ≤ x → x < q → tilingAt bufs chosen' x = tilingAt bufs chosen x := by
    intro x hx hxq
    refine h.eq_of_tiled ?_
    rw [hnest x (hle.trans hx) hxq]
    exact hq
  have hbefore : ∀ x, r.1 ≤ x → x < q → nestAt bufs chosen x = nestAt bufs chosen q := by
    intro x hx hxq
    rw [← h.nest hlo.le hhi, ← hnest x (hle.trans hx) hxq]
    unfold nestAt
    rw [hsame x hx hxq]
  have hstretch : stretch ≤ r.1 := by
    by_contra hlt'
    have hstart := hrun.stretch_le
    refine hrun.start (stretch - 1) (by omega) ?_
    rw [hbefore (stretch - 1) (by omega) (by omega), hrun.nest q (by omega) hhi,
      hrun.nest stretch le_rfl (by omega)]
  rw [hsame r.1 le_rfl hlt, h.same q hlo.le hhi] at haligned
  rw [h.same q hlo.le hhi] at htiled
  exact breaksAt_eq_true_iff.2 ⟨htiled, r, hr, hstretch, haligned⟩

/-- After the trim the run of a position is at least what it was. -/
theorem IsRun.grows (hrun : IsRun misread bufs chosen stretch lo hi)
    (hrun' : IsRun misread bufs chosen' stretch' lo' hi')
    (h : TrimmedOutside bufs chosen chosen' lo hi) (hlo : lo ≤ p) (hhi : p ≤ hi) (hlo' : lo' ≤ p)
    (hhi' : p ≤ hi') : lo' ≤ lo ∧ hi ≤ hi' := by
  have hnest : ∀ q, lo ≤ q → q ≤ hi → nestAt bufs chosen' q = nestAt bufs chosen hi := by
    intro q hq hq'
    rw [h.nest hq hq', hrun.nest q (hrun.stretch_le.trans hq) hq']
  have hlt := hrun.lt
  constructor
  · by_contra hgt
    rcases hrun'.left with heq | hbreak
    · exact hrun'.start (lo' - 1) (by omega)
        (by rw [hnest _ (by omega) (by omega), ← heq, hnest lo' (by omega) (by omega)])
    · have hcut := hrun.breaksAt_of_trimmed h (by omega) (by omega) (fun r hr hr' => by
        rw [hrun'.nest r hr (by omega), hrun'.nest lo' hrun'.stretch_le hrun'.le]) hbreak
      rw [hrun.inside lo' (by omega) (by omega)] at hcut
      exact Bool.false_ne_true hcut
  · by_contra hgt
    have hsame : nestAt bufs chosen' (hi' + 1) = nestAt bufs chosen' hi' := by
      rw [hnest _ (by omega) (by omega), hnest hi' (by omega) (by omega)]
    rcases hrun'.right with hend | hne | hbreak
    · omega
    · exact hne hsame
    · have hcut := hrun.breaksAt_of_trimmed h (by omega) (by omega) (fun r hr hr' => by
        rw [hrun'.nest r hr (by omega), hsame]) hbreak
      rw [hrun.inside (hi' + 1) (by omega) (by omega)] at hcut
      exact Bool.false_ne_true hcut

end Runs

/-! ## What a flood assigns -/

/-- The sources of a problem are those the engine builds : a space gives the divisions of its own
buffer, on either end of an edge too, and menus carry no tilings. -/
structure Generated (P : Problem) (space : ℕ → OpSplitSpace) : Prop where
  spaces : ∀ i b sp, P.bufs[i]? = some b → b.divisionSpace = some sp → sp = (space i).toSplitSpace
  menus : ∀ b ∈ P.bufs, ∀ d ∈ b.coreDivisions, d.tiling.isUntiled = true
  edges : ∀ p c parent child e, P.bufs[p]? = some parent → P.bufs[c]? = some child →
    child.residencyEdges parent.name = some e →
      (∃ v, e.consumerDivisionFor = (space c).inverse v) ∧
        ∃ v, e.parentDivisionFor = (space p).inverse v

/-- A tiled config is a division of its buffer's own space. -/
def Held (P : Problem) (space : ℕ → OpSplitSpace) (i : ℕ) (c : DivisionConfig) : Prop :=
  c.tiling.isUntiled = true ∨
    ∃ b sp, P.bufs[i]? = some b ∧ b.divisionSpace = some sp ∧ (space i).Member c.division

section Floods

variable {P : Problem} {space : ℕ → OpSplitSpace}

/-- A table knows untiled configs only. -/
theorem untiled_of_mem_resolvePairs {pairs : List (ℕ × ℕ)}
    {parentMenu childMenu : List DivisionConfig} {p : DivisionConfig × DivisionConfig}
    (h : p ∈ resolvePairs pairs parentMenu childMenu) :
    p.1.tiling.isUntiled = true ∧ p.2.tiling.isUntiled = true := by
  obtain ⟨q, -, hq⟩ := mem_filterMap.1 h
  cases hp : parentMenu[q.1]? with
  | none => simp [hp] at hq
  | some parent =>
    cases hc : childMenu[q.2]? with
    | none => simp [hp, hc] at hq
    | some child =>
      simp only [hp, hc] at hq
      split_ifs at hq with huntiled
      obtain rfl := Option.some.inj hq
      simpa using huntiled

variable {b : CoreDivisionBuffer} {c config d : DivisionConfig}

/-- The relation of an edge that neither end generates for answers with untiled configs. The
other ones answer with divisions of the space on that end. -/
theorem Generated.edgeRelation (G : Generated P space) {p c : ℕ} {parent child : CoreDivisionBuffer}
    (hparent : P.bufs[p]? = some parent) (hchild : P.bufs[c]? = some child) :
    ((P.edgeRelation parent child).childFor config = some d → Held P space c d) ∧
      ((P.edgeRelation parent child).parentFor config = some d → Held P space p d) := by
  unfold Problem.edgeRelation
  split
  · rename_i e parentSpace childSpace hedge hps hcs
    obtain ⟨⟨v, hv⟩, v', hv'⟩ := G.edges p c parent child e hparent hchild hedge
    have hview : ∀ carries, ((viewRelation e carries).childFor config = some d → Held P space c d) ∧
        ((viewRelation e carries).parentFor config = some d → Held P space p d) := by
      intro carries
      constructor
      · intro h
        obtain ⟨division, hd, rfl⟩ := Option.map_eq_some_iff.1 h
        rw [hv] at hd
        exact .inr ⟨child, childSpace, hchild, hcs, OpSplitSpace.member_inverse hd⟩
      · intro h
        obtain ⟨division, hd, rfl⟩ := Option.map_eq_some_iff.1 h
        rw [hv'] at hd
        exact .inr ⟨parent, parentSpace, hparent, hps, OpSplitSpace.member_inverse hd⟩
    split
    · exact hview _
    · exact hview _
  · constructor
    · intro h
      obtain ⟨pair, hpair, rfl⟩ := Option.map_eq_some_iff.1 h
      exact .inl (untiled_of_mem_resolvePairs (mem_of_find?_eq_some hpair)).2
    · intro h
      obtain ⟨pair, hpair, rfl⟩ := Option.map_eq_some_iff.1 h
      exact .inl (untiled_of_mem_resolvePairs (mem_of_find?_eq_some hpair)).1

theorem Generated.held_anchor (G : Generated P space) {i : ℕ} (hb : P.bufs[i]? = some b) {rng : Rng}
    (h : (b.anchor c rng).1 = some config) : Held P space i config := by
  unfold CoreDivisionBuffer.anchor at h
  cases hs : b.divisionSpace with
  | none =>
    rw [hs] at h
    dsimp only at h
    split_ifs at h
    have hmem : config ∈ b.menu := mem_of_mem_filter (mem_of_getElem? h)
    obtain ⟨entry, hentry, rfl⟩ := mem_map.1 hmem
    exact .inl (G.menus b (mem_of_getElem? hb) _ (fst_mem_of_mem_zipIdx hentry))
  | some sp =>
    rw [hs] at h
    obtain ⟨division, hd, rfl⟩ := Option.map_eq_some_iff.1 h
    obtain rfl := G.spaces i b sp hb hs
    exact .inr ⟨b, _, hb, hs, OpSplitSpace.member_anchor hd⟩

/-- Every config of a flood is held. -/
theorem Generated.held_flood (G : Generated P space) {anchor : ℕ}
    (hconfig : Held P space anchor config) :
    ∀ i c, floodRegion P anchor config i = some c → Held P space i c := by
  refine forall_floodRegion (fun p q r c d hr hd => ?_) (fun p q r c d hr hd => ?_) hconfig
  · obtain ⟨parent, child, hparent, hchild, rfl⟩ := relation_eq hr
    exact (G.edgeRelation hparent hchild).1 hd
  · obtain ⟨parent, child, hparent, hchild, rfl⟩ := relation_eq hr
    exact (G.edgeRelation hparent hchild).2 hd

/-- A held config that is not refused comes back untiled, with the same splits. -/
theorem Generated.retiled_untiled (G : Generated P space) {i : ℕ} (hb : P.bufs[i]? = some b)
    (hc : Held P space i c) (htiled : c.tiling.isUntiled = false) (h : b.retiled c {} = some d) :
    d.tiling.isUntiled = true ∧ d.division.splits = c.division.splits := by
  rcases hc with huntiled | ⟨b', sp, hb', hs, hmember⟩
  · rw [huntiled] at htiled
    exact nomatch htiled
  · obtain rfl : b = b' := Option.some.inj (hb.symm.trans hb')
    unfold CoreDivisionBuffer.retiled at h
    rw [hs, G.spaces i b sp hb hs] at h
    obtain ⟨division, hd, rfl⟩ := Option.map_eq_some_iff.1 h
    rw [OpSplitSpace.retiled_eq hmember hd]
    exact ⟨rfl, rfl⟩

end Floods

/-! ## The trim -/

section Trim

variable {P : Problem} {space : ℕ → OpSplitSpace} (chosen : Divisions) (anchor : ℕ)

/-- The vector of divisions with an assignment over it. -/
def override (chosen : Divisions) (a : Assignment) : Divisions :=
  fun i => (a i).getD (chosen i)

/-- A buffer's operation lies in the run of the anchor's, under an assignment. -/
def InAnchorRun (P : Problem) (chosen : Divisions) (anchor : ℕ) (a : Assignment) (i : ℕ) : Prop :=
  ∃ p q, P.positionOf anchor = some p ∧ P.positionOf i = some q ∧
    (P.runBounds (override chosen a) p).1 ≤ q ∧ q ≤ (P.runBounds (override chosen a) p).2

/-- A buffer's source does not take the splits of a config untiled. -/
def Refuses (P : Problem) (i : ℕ) (c : DivisionConfig) : Prop :=
  (P.bufs[i]?.bind fun b => b.retiled c {}) = none

variable {chosen anchor}

variable {c : DivisionConfig} {i p : ℕ}

/-- Every position is below `_n_positions`. -/
theorem lt_nPositions (h : P.positionOf i = some p) : p < nPositions P.runBufs := by
  obtain ⟨b, hb, hp⟩ := Option.bind_eq_some_iff.1 h
  exact foldr_max_le_iff.1 le_rfl p
    (mem_filterMap.2 ⟨_, mem_map_of_mem (mem_of_getElem? hb), hp⟩)

/-- The buffer at a position has that position. -/
theorem positionOf_of_bufferAt {q : ℕ} (h : bufferAt P.runBufs q = some i) :
    P.positionOf i = some q := by
  obtain ⟨hi, hq, -⟩ := findIdx?_eq_some_iff_getElem.1 h
  have hi' : i < P.bufs.length := by simpa [Problem.runBufs] using hi
  have hpos : P.bufs[i].opPosition = some q := by simpa [Problem.runBufs] using hq
  unfold Problem.positionOf
  rw [getElem?_eq_getElem hi', Option.bind_some, hpos]

theorem exists_isRun (chosen : Divisions) (hp : p < nPositions P.runBufs) :
    ∃ s, IsRun P.misread P.runBufs (fun i => (chosen i).tiling) s (P.runBounds chosen p).1
      (P.runBounds chosen p).2 ∧ (P.runBounds chosen p).1 ≤ p ∧ p ≤ (P.runBounds chosen p).2 := by
  obtain ⟨s, r, hr, hrun⟩ : HoldsAt P.misread P.runBufs (fun i => (chosen i).tiling) p _ :=
    holdsAt_runs hp
  have hbounds : P.runBounds chosen p = r := by
    unfold Problem.runBounds Problem.runs
    rw [hr]
    rfl
  rw [hbounds]
  exact ⟨s, hrun⟩

variable (P chosen anchor) in
theorem trim_eq (a : Assignment) (hc : a i = some c) :
    ∃ inRun : Bool, (inRun = true ↔ InAnchorRun P chosen anchor a i) ∧
      trimTilingsToAnchorRun P chosen anchor a i =
        some (if c.tiling.isUntiled || inRun then c
          else (P.bufs[i]?.bind fun b => b.retiled c {}).getD c) := by
  unfold trimTilingsToAnchorRun InAnchorRun
  rw [hc]
  cases hp : P.positionOf anchor with
  | none => exact ⟨false, by simp, rfl⟩
  | some p =>
    cases hq : P.positionOf i with
    | none => exact ⟨false, by simp, by simp [hq]⟩
    | some q =>
      refine ⟨decide ((P.runBounds (override chosen a) p).1 ≤ q) &&
        decide (q ≤ (P.runBounds (override chosen a) p).2), by simp, ?_⟩
      simp only [Option.map_some, hq]
      rfl

/-- What the trim does to a config : it stays if it is untiled, in the run or refused. -/
theorem trim_cases (a : Assignment) (hc : a i = some c) :
    (trimTilingsToAnchorRun P chosen anchor a i = some c ∧
      (c.tiling.isUntiled = true ∨ InAnchorRun P chosen anchor a i ∨ Refuses P i c)) ∨
    ∃ b d, P.bufs[i]? = some b ∧ c.tiling.isUntiled = false ∧ ¬ InAnchorRun P chosen anchor a i ∧
      b.retiled c {} = some d ∧ trimTilingsToAnchorRun P chosen anchor a i = some d := by
  obtain ⟨inRun, hinRun, heq⟩ := trim_eq P chosen anchor a hc
  by_cases hstay : (c.tiling.isUntiled || inRun) = true
  · rw [if_pos hstay] at heq
    rcases Bool.or_eq_true_iff.1 hstay with huntiled | hin
    · exact .inl ⟨heq, .inl huntiled⟩
    · exact .inl ⟨heq, .inr (.inl (hinRun.1 hin))⟩
  · rw [if_neg hstay] at heq
    rw [Bool.not_eq_true, Bool.or_eq_false_iff] at hstay
    have hout : ¬ InAnchorRun P chosen anchor a i := fun h => by
      rw [hinRun.2 h] at hstay
      exact nomatch hstay.2
    cases hr : P.bufs[i]?.bind fun b => b.retiled c {} with
    | none =>
      rw [hr] at heq
      exact .inl ⟨heq, .inr (.inr hr)⟩
    | some d =>
      rw [hr] at heq
      obtain ⟨b, hb, hd⟩ := Option.bind_eq_some_iff.1 hr
      exact .inr ⟨b, d, hb, hstay.1, hout, hd, heq⟩

theorem trim_none (a : Assignment) (hc : a i = none) :
    trimTilingsToAnchorRun P chosen anchor a i = none := by
  unfold trimTilingsToAnchorRun
  rw [hc]
  rfl

section Flooded

variable (G : Generated P space) {a : Assignment} (ha : ∀ i c, a i = some c → Held P space i c)

include G ha

/-- The trim takes tilings away outside the anchor's run and changes no other tiling. -/
theorem trimmedOutside {p : ℕ} (hp : P.positionOf anchor = some p) :
    TrimmedOutside P.runBufs (fun i => (override chosen a i).tiling)
      (fun i => (override chosen (trimTilingsToAnchorRun P chosen anchor a) i).tiling)
      (P.runBounds (override chosen a) p).1 (P.runBounds (override chosen a) p).2 := by
  -- A buffer keeps its tiling, or has none and is outside the run.
  have hbuf : ∀ i, override chosen (trimTilingsToAnchorRun P chosen anchor a) i =
      override chosen a i ∨ ¬ InAnchorRun P chosen anchor a i ∧
        (override chosen (trimTilingsToAnchorRun P chosen anchor a) i).tiling.isUntiled = true := by
    intro i
    unfold override
    cases hc : a i with
    | none => exact .inl (by rw [trim_none a hc])
    | some c =>
      rcases trim_cases a hc with ⟨heq, -⟩ | ⟨b, d, hb, htiled, hout, hd, heq⟩
      · exact .inl (by rw [heq])
      · refine .inr ⟨hout, ?_⟩
        rw [heq]
        exact (G.retiled_untiled hb (ha i c hc) htiled hd).1
  constructor
  · intro q hlo hhi
    unfold tilingAt
    cases hi : bufferAt P.runBufs q with
    | none => rfl
    | some i =>
      rcases hbuf i with heq | ⟨hout, -⟩
      · exact congrArg DivisionConfig.tiling heq
      · exact absurd ⟨p, q, hp, positionOf_of_bufferAt hi, hlo, hhi⟩ hout
  · intro q
    unfold tilingAt
    cases hi : bufferAt P.runBufs q with
    | none => exact .inl rfl
    | some i => exact (hbuf i).imp (congrArg DivisionConfig.tiling) And.right

/-- What is in the anchor's run stays in it. -/
theorem inAnchorRun_trim {i : ℕ} (h : InAnchorRun P chosen anchor a i) :
    InAnchorRun P chosen anchor (trimTilingsToAnchorRun P chosen anchor a) i := by
  obtain ⟨p, q, hp, hq, hlo, hhi⟩ := h
  obtain ⟨s, hrun, hle, hle'⟩ := exists_isRun (override chosen a) (lt_nPositions hp)
  obtain ⟨s', hrun', hle₁, hle₁'⟩ := exists_isRun
    (override chosen (trimTilingsToAnchorRun P chosen anchor a)) (lt_nPositions hp)
  have hgrows := hrun.grows hrun' (trimmedOutside G ha hp) hle hle' hle₁ hle₁'
  exact ⟨p, q, hp, hq, hgrows.1.trans hlo, hhi.trans hgrows.2⟩

/-- What is tiled after the trim is in the run as it then is, or refused. -/
theorem inAnchorRun_or_refuses {i : ℕ} {c : DivisionConfig}
    (hc : trimTilingsToAnchorRun P chosen anchor a i = some c)
    (htiled : c.tiling.isUntiled = false) :
    InAnchorRun P chosen anchor (trimTilingsToAnchorRun P chosen anchor a) i ∨ Refuses P i c := by
  cases hbefore : a i with
  | none =>
    rw [trim_none a hbefore] at hc
    exact nomatch hc
  | some c₀ =>
    rcases trim_cases a hbefore with ⟨heq, hwhy⟩ | ⟨b, d, hb, htiled₀, -, hd, heq⟩
    · obtain rfl := Option.some.inj (heq.symm.trans hc)
      rcases hwhy with huntiled | hin | hrefuses
      · rw [huntiled] at htiled
        exact nomatch htiled
      · exact .inl (inAnchorRun_trim G ha hin)
      · exact .inr hrefuses
    · obtain rfl := Option.some.inj (heq.symm.trans hc)
      rw [(G.retiled_untiled hb (ha i c₀ hbefore) htiled₀ hd).1] at htiled
      exact nomatch htiled

theorem trim_splits (i : ℕ) :
    (trimTilingsToAnchorRun P chosen anchor a i).map (fun c => c.division.splits) =
      (a i).map fun c => c.division.splits := by
  cases hc : a i with
  | none => rw [trim_none a hc]
  | some c =>
    rcases trim_cases a hc with ⟨heq, -⟩ | ⟨b, d, hb, htiled, -, hd, heq⟩
    · rw [heq]
    · rw [heq]
      exact congrArg some (G.retiled_untiled hb (ha i c hc) htiled hd).2

/-- A second trim finds nothing to take away. -/
theorem trim_trim :
    trimTilingsToAnchorRun P chosen anchor (trimTilingsToAnchorRun P chosen anchor a) =
      trimTilingsToAnchorRun P chosen anchor a := by
  funext i
  cases hc : trimTilingsToAnchorRun P chosen anchor a i with
  | none => exact trim_none _ hc
  | some c =>
    rcases trim_cases _ hc with ⟨heq, -⟩ | ⟨b, d, hb, htiled, hout, hd, -⟩
    · exact heq
    · rcases inAnchorRun_or_refuses G ha hc htiled with hin | hrefuses
      · exact absurd hin hout
      · unfold Refuses at hrefuses
        rw [hb, Option.bind_some, hd] at hrefuses
        exact nomatch hrefuses

end Flooded

/-- A trimmed flood has the splits of the flood, is the flood within the anchor's run, and is
tiled where the run then is or a source refuses to be untiled. Trimming it again changes
nothing. -/
theorem trimTilingsToAnchorRun_settles (G : Generated P space) {anchor : ℕ} {b : CoreDivisionBuffer}
    (hb : P.bufs[anchor]? = some b) {current config : DivisionConfig} {rng : Rng}
    (hconfig : (b.anchor current rng).1 = some config) (chosen : Divisions) :
    let flooded := floodRegion P anchor config
    let trimmed := trimTilingsToAnchorRun P chosen anchor flooded
    (∀ i, (trimmed i).map (fun c => c.division.splits) =
      (flooded i).map fun c => c.division.splits) ∧
    (∀ i, InAnchorRun P chosen anchor flooded i → trimmed i = flooded i) ∧
    (∀ i c, trimmed i = some c → c.tiling.isUntiled = false →
      InAnchorRun P chosen anchor trimmed i ∨ Refuses P i c) ∧
    trimTilingsToAnchorRun P chosen anchor trimmed = trimmed := by
  have hheld := G.held_flood (G.held_anchor hb hconfig)
  refine ⟨trim_splits G hheld, fun i hin => ?_, fun i c => inAnchorRun_or_refuses G hheld,
    trim_trim G hheld⟩
  cases hc : floodRegion P anchor config i with
  | none => exact trim_none _ hc
  | some c =>
    rcases trim_cases _ hc with ⟨heq, -⟩ | ⟨-, -, -, -, hout, -, -⟩
    · exact heq
    · exact absurd hin hout

/-- One axis, to be split in two, with or without four tiles. -/
def oneAxis : OpSplitSpace where
  axes := ["x"]
  nodup_axes := by decide
  outputAxes := ["x"]
  factorDomain _ _ := [2]
  admitsTiling _ := true
  admits _ _ := true
  tilingOptions _ := []
  canTile := true
  drawTiling rng := (⟨[⟨0, 4, false⟩]⟩, rng)
  shuffle rng := (["x"], rng)

/-- A view of a buffer that the axis slices in two. -/
def inTwo : ViewInverse where
  hasPartialRead := false
  invert _ _ := some fun _ => 2
  compatible _ _ := true

/-- An operation with that axis, at a position. -/
def oneAxisOp (life : LifetimeBoundBuffer) (position : ℕ) (parents : List String) :
    CoreDivisionBuffer where
  life := life
  size := 64
  coreDivisions := [⟨[("x", 2)], [], {}⟩]
  coreDivisions_ne := by decide
  divisionSpace := some oneAxis.toSplitSpace
  parents := parents
  residencyEdges _ := some
    { compatible := fun _ _ => true
      consumerDivisionFor := oneAxis.inverse inTwo
      parentDivisionFor := oneAxis.inverse inTwo }
  opPosition := some position

/-- The producer, live before and after its reader starts. -/
def straddlingProducer : CoreDivisionBuffer :=
  oneAxisOp ⟨"a", 0, [1, 6], false, [], none, none, none, none, [], [], by decide, by decide⟩ 0 []

/-- Its reader, two operations later. -/
def straddlingReader : CoreDivisionBuffer :=
  oneAxisOp ⟨"c", 0, [2, 8], false, [], none, none, none, none, [], [], by decide, by decide⟩ 2
    ["a"]

/-- A producer at position 0 and its reader at position 2. No operation that can be tiled is
between them. -/
def straddling : Problem where
  bufs := [straddlingProducer, straddlingReader]
  limit := 1024
  alignment := 128
  misread _ _ _ _ _ := false
  scoreFn := none
  hbmBytesPerUs := 1
  toFixedUs _ := 0
  order := PermLayout.insertionOrder

theorem straddling_generated : Generated straddling fun _ => oneAxis := by
  have hbufs : ∀ b ∈ straddling.bufs, ∃ life position parents,
      b = oneAxisOp life position parents := by
    intro b hb
    simp only [straddling, mem_cons, not_mem_nil, or_false] at hb
    rcases hb with rfl | rfl
    · exact ⟨_, _, _, rfl⟩
    · exact ⟨_, _, _, rfl⟩
  refine ⟨fun i b sp hb hs => ?_, fun b hb d hd => ?_, fun p c parent child e _ hchild he => ?_⟩
  · obtain ⟨life, position, parents, rfl⟩ := hbufs b (mem_of_getElem? hb)
    exact (Option.some.inj hs).symm
  · obtain ⟨life, position, parents, rfl⟩ := hbufs b hb
    obtain rfl := mem_singleton.1 hd
    rfl
  · obtain ⟨life, position, parents, rfl⟩ := hbufs child (mem_of_getElem? hchild)
    obtain rfl := Option.some.inj he
    exact ⟨⟨inTwo, rfl⟩, inTwo, rfl⟩

/-- The division drawn for the producer. -/
def twoHalves : DivisionConfig :=
  configFor ⟨[("x", 2)], [], ⟨[⟨0, 4, false⟩]⟩⟩

/-- The flood tiles the reader as well, and the trim takes that back. -/
theorem trimTilingsToAnchorRun_settles_straddling :
    (floodRegion straddling 0 twoHalves 1).map DivisionConfig.tiling = some twoHalves.tiling ∧
      (trimTilingsToAnchorRun straddling (fun _ => configFor ⟨[], [], {}⟩) 0
        (floodRegion straddling 0 twoHalves) 1).map DivisionConfig.tiling = some {} ∧
      trimTilingsToAnchorRun straddling (fun _ => configFor ⟨[], [], {}⟩) 0
          (trimTilingsToAnchorRun straddling (fun _ => configFor ⟨[], [], {}⟩) 0
            (floodRegion straddling 0 twoHalves)) =
        trimTilingsToAnchorRun straddling (fun _ => configFor ⟨[], [], {}⟩) 0
          (floodRegion straddling 0 twoHalves) := by
  refine ⟨by decide +kernel, by decide +kernel, ?_⟩
  have hdraw : (straddlingProducer.anchor (configFor ⟨[], [], {}⟩) ⟨fun _ => 0, 0⟩).1 =
      some twoHalves := by decide +kernel
  exact (trimTilingsToAnchorRun_settles straddling_generated rfl hdraw _).2.2.2

end Trim

end Annealer

end TorchSpyre
