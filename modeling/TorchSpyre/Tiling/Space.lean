import Mathlib
import TorchSpyre.Annealer.Runs
import TorchSpyre.Choices

/-!
# The space of tilings

`TilingSpace` in `wsr/enumerate_tilings.py` holds the counts each output dimension may be split
into. The specs it allows are given three times : by a predicate (`admits`), by a list
(`enumerate`) and by moves (`neighbours`), which change, remove or add a level and bring the
levels back to their order.

The list is a cross product over subsets of the dimensions, and it holds what the predicate
admits, once each (`mem_enumerate`, `nodup_enumerate`). Two admitted specs are neighbours if a
level more, a level less or another count tells them apart (`mem_neighbours_iff`), which does
not depend on which of the two comes first. Removing levels leads to the untiled spec.
-/

open List hiding product mem_product

namespace TorchSpyre

open Annealer Choices

/-- The legal output tilings of an operation. `outputCounts` is a dictionary. -/
structure TilingSpace where
  maxDims : ℤ
  outputCounts : List (ℕ × List ℕ)
  keys_nodup : (outputCounts.map Prod.fst).Nodup

/-- The key `canonical_tiling` sorts by : output levels first, then by dimension. -/
def canonicalLe (a b : TileAxis) : Prop :=
  a.isReduction < b.isReduction ∨ a.isReduction = b.isReduction ∧ a.hostDim ≤ b.hostDim

instance : DecidableRel canonicalLe := fun a b =>
  inferInstanceAs (Decidable (a.isReduction < b.isReduction ∨
    a.isReduction = b.isReduction ∧ a.hostDim ≤ b.hostDim))

/-- `canonical_tiling`. -/
def canonicalTiling (spec : TileSpec) : TileSpec :=
  ⟨spec.axes.insertionSort canonicalLe⟩

namespace TilingSpace

variable (space : TilingSpace)

/-- The tileable output dimensions, ascending. -/
def outputDims : List ℕ :=
  (space.outputCounts.map Prod.fst).insertionSort (· ≤ ·)

/-- The legal counts of a dimension. -/
def counts (hostDim : ℕ) : List ℕ :=
  (space.outputCounts.lookup hostDim).getD []

/-- `admits`. -/
def admits (spec : TileSpec) : Bool :=
  if spec.isUntiled then true
  else if spec.axes.any TileAxis.isReduction then false
  else if spec.axes.any fun axis => axis.count ∉ space.counts axis.hostDim then false
  else if (spec.axes.zip spec.axes.tail).any fun p => p.1.hostDim ≥ p.2.hostDim then false
  else (spec.axes.length : ℤ) ≤ space.maxDims

/-- The tileable dimensions with their counts. -/
def perDim : List (ℕ × List ℕ) :=
  space.outputDims.map fun dim => (dim, space.counts dim)

/-- The spec of a choice of dimensions and a count for each. -/
def specOf (combo : List (ℕ × List ℕ)) (counts : List ℕ) : TileSpec :=
  ⟨((combo.map Prod.fst).zip counts).map fun p => { hostDim := p.1, count := p.2 }⟩

/-- `enumerate`. -/
def enumerate : List TileSpec :=
  let depths := (range (min space.maxDims space.perDim.length).toNat).map (· + 1)
  {} :: depths.flatMap fun depth =>
    (combinations depth space.perDim).flatMap fun combo =>
      (product (combo.map Prod.snd)).map (specOf combo)

/-- The candidates of `neighbours` that change the count of a level. -/
def changed (axes : List TileAxis) : List TileSpec :=
  axes.zipIdx.flatMap fun p =>
    ((space.counts p.1.hostDim).filter (· ≠ p.1.count)).map fun count =>
      ⟨axes.take p.2 ++ { p.1 with count } :: axes.drop (p.2 + 1)⟩

/-- Those that remove a level. -/
def removed (axes : List TileAxis) : List TileSpec :=
  (range axes.length).map fun i => ⟨axes.take i ++ axes.drop (i + 1)⟩

/-- Those that add one. -/
def added (axes : List TileAxis) : List TileSpec :=
  let tiled := (axes.filter fun a => !a.isReduction).map TileAxis.hostDim
  (space.outputDims.filter (· ∉ tiled)).flatMap fun hostDim =>
    (space.counts hostDim).map fun count => ⟨axes ++ [{ hostDim := hostDim, count := count }]⟩

/-- `neighbours`. -/
def neighbours (spec : TileSpec) : List TileSpec :=
  ((space.changed spec.axes ++ removed spec.axes ++ space.added spec.axes).map
    canonicalTiling).eraseDups.filter fun candidate =>
      candidate ≠ spec ∧ space.admits candidate

/-! ## What is admitted -/

variable {space}

/-- The levels of an admitted spec : output levels with legal counts, the dimensions
ascending. -/
structure Legal (space : TilingSpace) (axes : List TileAxis) : Prop where
  output : ∀ a ∈ axes, a.isReduction = false
  count : ∀ a ∈ axes, a.count ∈ space.counts a.hostDim
  ascending : axes.Pairwise fun a b => a.hostDim < b.hostDim
  depth : axes = [] ∨ (axes.length : ℤ) ≤ space.maxDims

variable {combo : List (ℕ × List ℕ)} {axes axes' : List TileAxis} {cs : List ℕ}
  {c s spec t : TileSpec} {count dim : ℕ}

theorem isChain_iff_zip_tail :
    axes.IsChain (fun a b => a.hostDim < b.hostDim) ↔
      ∀ p ∈ axes.zip axes.tail, p.1.hostDim < p.2.hostDim := by
  induction axes with
  | nil => simp
  | cons a l ih =>
    cases l with
    | nil => simp
    | cons b l =>
      rw [isChain_cons_cons, ih]
      simp

theorem admits_iff : space.admits spec ↔ space.Legal spec.axes := by
  have hchain : spec.axes.Pairwise (fun a b => a.hostDim < b.hostDim) ↔
      ∀ p ∈ spec.axes.zip spec.axes.tail, p.1.hostDim < p.2.hostDim := by
    have : IsTrans TileAxis fun a b => a.hostDim < b.hostDim := ⟨fun _ _ _ => lt_trans⟩
    rw [← isChain_iff_pairwise, isChain_iff_zip_tail]
  rw [admits]
  split_ifs with huntiled hred hcount horder
  · have hnil : spec.axes = [] := by simpa [TileSpec.isUntiled] using huntiled
    exact iff_of_true rfl (hnil ▸ ⟨by simp, by simp, .nil, .inl rfl⟩)
  · obtain ⟨a, ha, hra⟩ := any_eq_true.mp hred
    exact iff_of_false (by simp) fun h => by simp [h.output a ha] at hra
  · obtain ⟨a, ha, hca⟩ := any_eq_true.mp hcount
    exact iff_of_false (by simp) fun h => by simp [h.count a ha] at hca
  · obtain ⟨p, hp, hge⟩ := any_eq_true.mp horder
    have hge : p.2.hostDim ≤ p.1.hostDim := by simpa using hge
    exact iff_of_false (by simp) fun h => by have := hchain.mp h.ascending p hp; omega
  · have hne : spec.axes ≠ [] := by simpa [TileSpec.isUntiled] using huntiled
    rw [decide_eq_true_eq]
    refine ⟨fun hdepth => ⟨?_, ?_, hchain.mpr ?_, .inr hdepth⟩, fun h => h.depth.resolve_left hne⟩
    · simpa using hred
    · simpa using hcount
    · simpa using horder

theorem Legal.sublist (h : space.Legal axes) (hsub : axes'.Sublist axes) : space.Legal axes' where
  output a ha := h.output a (hsub.subset ha)
  count a ha := h.count a (hsub.subset ha)
  ascending := h.ascending.sublist hsub
  depth := by
    have hlen := hsub.length_le
    rcases h.depth with hnil | hdepth
    · subst hnil
      exact .inl (sublist_nil.mp hsub)
    · exact .inr (by omega)

theorem Legal.pairwise_hostDim (h : space.Legal axes) :
    (axes.map TileAxis.hostDim).Pairwise (· < ·) :=
  pairwise_map.mpr h.ascending

theorem mem_outputDims : dim ∈ space.outputDims ↔ dim ∈ space.outputCounts.map Prod.fst :=
  mem_insertionSort _

/-- Only the dimensions of the dictionary have counts. -/
theorem mem_outputDims_of_mem_counts (h : count ∈ space.counts dim) :
    dim ∈ space.outputDims := by
  rw [mem_outputDims]
  by_contra hdim
  have hnone : space.outputCounts.lookup dim = none := by
    refine lookup_eq_none_iff.mpr fun p hp => ?_
    simpa using fun h : dim = p.1 => hdim (h ▸ mem_map_of_mem hp)
  simp [counts, hnone] at h

theorem pairwise_outputDims : space.outputDims.Pairwise (· < ·) := by
  have hle := List.pairwise_insertionSort (· ≤ ·) (space.outputCounts.map Prod.fst)
  have hne : space.outputDims.Nodup := (perm_insertionSort _ _).nodup_iff.mpr space.keys_nodup
  exact hle.imp₂ (fun _ _ hle hne => lt_of_le_of_ne hle hne) hne

/-! ## The list -/

theorem map_hostDim_specOf (hlen : combo.length = cs.length) :
    (specOf combo cs).axes.map TileAxis.hostDim =
      combo.map Prod.fst := by
  rw [specOf, map_map]
  exact map_fst_zip (by simp [hlen])

theorem map_count_specOf (hlen : combo.length = cs.length) :
    (specOf combo cs).axes.map TileAxis.count = cs := by
  rw [specOf, map_map]
  exact map_snd_zip (by simp [hlen])

/-- A choice of dimensions names their counts. -/
theorem exists_of_sublist_perDim (h : combo.Sublist space.perDim) :
    (combo.map Prod.fst).Sublist space.outputDims ∧
      combo = (combo.map Prod.fst).map fun dim => (dim, space.counts dim) := by
  obtain ⟨dims, hdims, rfl⟩ := sublist_map_iff.mp h
  have hfst : (dims.map fun dim => (dim, space.counts dim)).map Prod.fst = dims := by
    simp [Function.comp_def]
  exact ⟨hfst.symm ▸ hdims, by rw [hfst]⟩

/-- A choice of dimensions, and a count for each, is a legal spec. -/
theorem legal_specOf (hcombo : combo.Sublist space.perDim)
    (hcs : List.Forall₂ (· ∈ ·) cs (combo.map Prod.snd))
    (hdepth : (combo.length : ℤ) ≤ space.maxDims) : space.Legal (specOf combo cs).axes := by
  have hlen : combo.length = cs.length := by simpa using hcs.length_eq.symm
  obtain ⟨hdims, hcounts⟩ := exists_of_sublist_perDim hcombo
  refine ⟨fun a ha => ?_, fun a ha => ?_, ?_, .inr ?_⟩
  · obtain ⟨p, -, rfl⟩ := mem_map.mp ha
    rfl
  · obtain ⟨p, hp, rfl⟩ := mem_map.mp ha
    rw [hcounts, map_map, forall₂_map_right_iff] at hcs
    exact (forall₂_iff_zip.mp hcs.flip).2 hp
  · have hpair := pairwise_outputDims.sublist hdims
    rw [← map_hostDim_specOf hlen] at hpair
    exact pairwise_map.mp hpair
  · have hlength := congrArg length (map_hostDim_specOf hlen)
    simp only [length_map] at hlength
    omega

/-- A legal spec is a choice of dimensions and a count for each. -/
theorem exists_specOf (h : space.Legal axes) :
    ∃ combo cs, combo.Sublist space.perDim ∧ combo.length = axes.length ∧
      List.Forall₂ (· ∈ ·) cs (combo.map Prod.snd) ∧ specOf combo cs = ⟨axes⟩ := by
  have hdims : (axes.map TileAxis.hostDim).Sublist space.outputDims := by
    refine sublist_of_subperm_of_pairwise (r := (· ≤ ·)) ?_ (h.pairwise_hostDim.imp le_of_lt)
      (pairwise_outputDims.imp le_of_lt)
    refine subperm_of_subset (h.pairwise_hostDim.imp ne_of_lt) fun dim hdim => ?_
    obtain ⟨a, ha, rfl⟩ := mem_map.mp hdim
    exact mem_outputDims_of_mem_counts (h.count a ha)
  refine ⟨(axes.map TileAxis.hostDim).map fun dim => (dim, space.counts dim),
    axes.map TileAxis.count, hdims.map _, by simp, ?_, ?_⟩
  · simp only [map_map, forall₂_map_left_iff, forall₂_map_right_iff]
    exact forall₂_same.mpr h.count
  · rw [specOf]
    refine congrArg TileSpec.mk ?_
    simp only [map_map, zip_map']
    refine (map_congr_left fun a ha => ?_).trans (map_id axes)
    have hred := h.output a ha
    obtain ⟨hostDim, count, isReduction⟩ := a
    dsimp only at hred
    subst hred
    rfl

theorem mem_depths {n : ℕ} {k : ℤ} :
    n ∈ (range k.toNat).map (· + 1) ↔ 0 < n ∧ (n : ℤ) ≤ k := by
  simp only [mem_map, mem_range]
  constructor
  · rintro ⟨i, hi, rfl⟩
    omega
  · rintro ⟨hpos, hle⟩
    exact ⟨n - 1, by omega, by omega⟩

/-- The list holds what is admitted. -/
theorem mem_enumerate : spec ∈ space.enumerate ↔ space.Legal spec.axes := by
  obtain ⟨axes⟩ := spec
  simp only [enumerate, mem_cons, mem_flatMap, mem_map, mem_combinations, mem_product]
  constructor
  · rintro (hnil | ⟨depth, hdepth, combo, ⟨hcombo, hlen⟩, cs, hcs, hspec⟩)
    · obtain rfl := TileSpec.mk.inj hnil
      exact ⟨by simp, by simp, .nil, .inl rfl⟩
    · have hdepth := (mem_depths.mp (mem_map.mpr hdepth)).2
      have hlegal := legal_specOf hcombo hcs (by omega)
      rwa [hspec] at hlegal
  · intro h
    rcases h.depth with hnil | hdepth
    · exact .inl (congrArg TileSpec.mk hnil)
    · obtain ⟨combo, cs, hcombo, hlen, hcs, hspec⟩ := exists_specOf h
      by_cases hne : axes = []
      · exact .inl (congrArg TileSpec.mk hne)
      · have hpos : 0 < axes.length := length_pos_iff.mpr hne
        have hle := hcombo.length_le
        refine .inr ⟨axes.length, ?_, combo, ⟨hcombo, hlen⟩, cs, hcs, hspec⟩
        exact mem_map.mp (mem_depths.mpr ⟨hpos, by omega⟩)

theorem length_of_mem_product (h : cs ∈ product (combo.map Prod.snd)) :
    combo.length = cs.length := by
  simpa using (mem_product.mp h).length_eq.symm

/-- Each spec is enumerated once. -/
theorem nodup_enumerate (hdistinct : ∀ p ∈ space.outputCounts, p.2.Nodup) :
    space.enumerate.Nodup := by
  have hcounts : ∀ dim, (space.counts dim).Nodup := by
    intro dim
    rw [counts]
    cases hlookup : space.outputCounts.lookup dim with
    | none => exact nodup_nil
    | some cs =>
      obtain ⟨l₁, l₂, hsplit, -⟩ := lookup_eq_some_iff.mp hlookup
      exact hdistinct (dim, cs) (hsplit ▸ mem_append_right l₁ mem_cons_self)
  have hdims : space.outputDims.Nodup := pairwise_outputDims.imp ne_of_lt
  have hperDim : space.perDim.Nodup := hdims.map fun _ _ h => (Prod.mk.inj h).1
  -- What is said of a spec by the choices it comes from.
  have hchoice : ∀ depth, ∀ combo ∈ combinations depth space.perDim,
      ∀ spec ∈ (product (combo.map Prod.snd)).map (specOf combo),
        spec.axes.length = depth ∧ combo =
          (spec.axes.map TileAxis.hostDim).map fun dim => (dim, space.counts dim) := by
    intro depth combo hcombo spec hspec
    obtain ⟨cs, hcs, rfl⟩ := mem_map.mp hspec
    obtain ⟨hsub, hlen⟩ := mem_combinations.mp hcombo
    have hdims := map_hostDim_specOf (length_of_mem_product hcs)
    refine ⟨?_, by rw [hdims]; exact (exists_of_sublist_perDim hsub).2⟩
    have hcount := congrArg length hdims
    simp only [length_map] at hcount
    omega
  have hproduct : ∀ depth, ∀ combo ∈ combinations depth space.perDim,
      ((product (combo.map Prod.snd)).map (specOf combo)).Nodup := by
    intro depth combo hcombo
    have hcombo := (exists_of_sublist_perDim (mem_combinations.mp hcombo).1).2
    refine List.Nodup.map_on (fun cs hcs cs' hcs' heq => ?_) (nodup_product fun l hl => ?_)
    · rw [← map_count_specOf (length_of_mem_product hcs),
        ← map_count_specOf (length_of_mem_product hcs'), heq]
    · obtain ⟨p, hp, rfl⟩ := mem_map.mp hl
      rw [hcombo] at hp
      obtain ⟨dim, -, rfl⟩ := mem_map.mp hp
      exact hcounts dim
  rw [enumerate]
  refine nodup_cons.mpr ⟨fun hmem => ?_, nodup_flatMap.mpr ⟨fun depth _ => ?_, ?_⟩⟩
  · obtain ⟨depth, hdepth, hmem⟩ := mem_flatMap.mp hmem
    obtain ⟨combo, hcombo, hmem⟩ := mem_flatMap.mp hmem
    have hpos := (mem_depths.mp hdepth).1
    have hlen := (hchoice depth combo hcombo _ hmem).1
    simp only [length_nil] at hlen
    omega
  · refine nodup_flatMap.mpr ⟨hproduct depth, ?_⟩
    refine (nodup_combinations hperDim depth).imp_of_mem fun {c c'} hc hc' hne spec hs hs' => ?_
    exact hne ((hchoice depth c hc spec hs).2.trans (hchoice depth c' hc' spec hs').2.symm)
  · have hdepths : ((range (min space.maxDims space.perDim.length).toNat).map
        (· + 1)).Nodup := nodup_range.map (add_left_injective 1)
    refine hdepths.imp fun {n m} hne spec hs hs' => ?_
    obtain ⟨c, hc, hs⟩ := mem_flatMap.mp hs
    obtain ⟨c', hc', hs'⟩ := mem_flatMap.mp hs'
    exact hne ((hchoice n c hc spec hs).1.symm.trans (hchoice m c' hc' spec hs').1)

/-! ## The moves -/

/-- One list of levels has a level more than the other, or another count at one level. -/
inductive Edit : List TileAxis → List TileAxis → Prop
  | change (pre post : List TileAxis) (a : TileAxis) (count : ℕ) :
      Edit (pre ++ a :: post) (pre ++ { a with count } :: post)
  | remove (pre post : List TileAxis) (a : TileAxis) : Edit (pre ++ a :: post) (pre ++ post)
  | add (pre post : List TileAxis) (a : TileAxis) : Edit (pre ++ post) (pre ++ a :: post)

theorem Edit.symm (h : Edit axes axes') : Edit axes' axes := by
  cases h with
  | change pre post a count => exact .change pre post { a with count } a.count
  | remove pre post a => exact .add pre post a
  | add pre post a => exact .remove pre post a

instance : IsTrans TileAxis canonicalLe where
  trans a b c hab hbc := by
    rcases hab with hab | ⟨hab, hab'⟩ <;> rcases hbc with hbc | ⟨hbc, hbc'⟩
    · exact .inl (hab.trans hbc)
    · exact .inl (hbc ▸ hab)
    · exact .inl (hab ▸ hbc)
    · exact .inr ⟨hab.trans hbc, hab'.trans hbc'⟩

instance : Std.Total canonicalLe where
  total a b := by
    rcases lt_trichotomy a.isReduction b.isReduction with h | h | h
    · exact .inl (.inl h)
    · rcases le_total a.hostDim b.hostDim with hdim | hdim
      · exact .inl (.inr ⟨h, hdim⟩)
      · exact .inr (.inr ⟨h.symm, hdim⟩)
    · exact .inr (.inl h)

/-- Levels in any order are brought into the order of a spec that has the same levels. -/
theorem Legal.canonicalTiling_eq (h : space.Legal axes) (hperm : axes'.Perm axes) :
    canonicalTiling ⟨axes'⟩ = ⟨axes⟩ := by
  -- the order of the levels is one of their dimensions, since no level is a reduction
  have hsorted : axes.Pairwise canonicalLe := h.ascending.imp_of_mem fun {a b} ha hb hlt =>
    .inr ⟨(h.output a ha).trans (h.output b hb).symm, hlt.le⟩
  refine congrArg TileSpec.mk (List.Perm.eq_of_pairwise (fun a b ha hb hab hba => ?_)
    (List.pairwise_insertionSort canonicalLe axes') hsorted ((perm_insertionSort _ _).trans hperm))
  have ha := hperm.mem_iff.mp ((mem_insertionSort _).mp ha)
  have hdim : a.hostDim = b.hostDim := by
    simp only [canonicalLe, h.output a ha, h.output b hb, lt_irrefl, false_or, true_and] at hab hba
    omega
  exact inj_on_of_nodup_map (h.pairwise_hostDim.imp ne_of_lt) ha hb hdim

theorem eq_of_perm_of_ascending (hperm : axes'.Perm axes)
    (h' : axes'.Pairwise fun a b => a.hostDim < b.hostDim)
    (h : axes.Pairwise fun a b => a.hostDim < b.hostDim) : axes' = axes :=
  List.Perm.eq_of_pairwise (fun _ _ _ _ hab hba => absurd hab hba.asymm) h' h hperm

theorem mem_neighbours : t ∈ space.neighbours s ↔
    (∃ c ∈ space.changed s.axes ++ removed s.axes ++ space.added s.axes, canonicalTiling c = t) ∧
      t ≠ s ∧ space.admits t := by
  rw [neighbours, mem_filter, mem_eraseDups, mem_map, decide_eq_true_eq]

theorem mem_changed : c ∈ space.changed axes ↔
    ∃ pre a post count, axes = pre ++ a :: post ∧ count ∈ space.counts a.hostDim ∧
      count ≠ a.count ∧ c = ⟨pre ++ { a with count } :: post⟩ := by
  simp only [changed, mem_flatMap, mem_map, mem_filter, decide_eq_true_eq]
  constructor
  · rintro ⟨⟨a, i⟩, hmem, count, ⟨hcount, hne⟩, rfl⟩
    have hget := mk_mem_zipIdx_iff_getElem?.mp hmem
    obtain ⟨hi, ha⟩ := List.getElem?_eq_some_iff.mp hget
    refine ⟨axes.take i, a, axes.drop (i + 1), count, ?_, hcount, hne, rfl⟩
    rw [← ha, getElem_cons_drop, take_append_drop]
  · rintro ⟨pre, a, post, count, rfl, hcount, hne, rfl⟩
    refine ⟨(a, pre.length), ?_, count, ⟨hcount, hne⟩, by simp⟩
    exact mk_mem_zipIdx_iff_getElem?.mpr (by simp)

theorem mem_removed : c ∈ removed axes ↔
    ∃ pre a post, axes = pre ++ a :: post ∧ c = ⟨pre ++ post⟩ := by
  simp only [removed, mem_map, mem_range]
  constructor
  · rintro ⟨i, hi, rfl⟩
    refine ⟨axes.take i, axes[i], axes.drop (i + 1), ?_, rfl⟩
    rw [getElem_cons_drop, take_append_drop]
  · rintro ⟨pre, a, post, rfl, rfl⟩
    exact ⟨pre.length, by simp, by simp⟩

theorem mem_added (houtput : ∀ a ∈ axes, a.isReduction = false) : c ∈ space.added axes ↔
      ∃ a : TileAxis, a.isReduction = false ∧ a.count ∈ space.counts a.hostDim ∧
        a.hostDim ∉ axes.map TileAxis.hostDim ∧ c = ⟨axes ++ [a]⟩ := by
  have htiled : (axes.filter fun a => !a.isReduction) = axes :=
    filter_eq_self.mpr fun a ha => by simp [houtput a ha]
  simp only [added, htiled, mem_flatMap, mem_map, mem_filter, decide_eq_true_eq]
  constructor
  · rintro ⟨hostDim, ⟨-, hnot⟩, count, hcount, rfl⟩
    exact ⟨{ hostDim := hostDim, count := count }, rfl, hcount, hnot, rfl⟩
  · rintro ⟨⟨hostDim, count, isReduction⟩, rfl, hcount, hnot, rfl⟩
    exact ⟨hostDim, ⟨mem_outputDims_of_mem_counts hcount, hnot⟩, count, hcount, rfl⟩

theorem Legal.change {pre post : List TileAxis} {a : TileAxis} (h : space.Legal (pre ++ a :: post))
    (hcount : count ∈ space.counts a.hostDim) :
    space.Legal (pre ++ { a with count } :: post) := by
  have hmem : ∀ b ∈ pre ++ { a with count } :: post,
      b = { a with count } ∨ b ∈ pre ++ a :: post := by
    intro b hb
    simp only [mem_append, mem_cons] at hb ⊢
    tauto
  refine ⟨fun b hb => ?_, fun b hb => ?_, ?_, ?_⟩
  · rcases hmem b hb with rfl | hb
    · exact h.output a (by simp)
    · exact h.output b hb
  · rcases hmem b hb with rfl | hb
    · exact hcount
    · exact h.count b hb
  · have hdims : (pre ++ { a with count } :: post).map TileAxis.hostDim =
        (pre ++ a :: post).map TileAxis.hostDim := by simp
    have hpair := h.pairwise_hostDim
    rw [← hdims] at hpair
    exact pairwise_map.mp hpair
  · refine h.depth.imp (fun hnil => ?_) fun hdepth => ?_
    · simp at hnil
    · simpa using hdepth

/-- The neighbours of an admitted spec are the admitted specs one edit away. -/
theorem mem_neighbours_iff (hs : space.Legal s.axes) :
    t ∈ space.neighbours s ↔ space.Legal t.axes ∧ t ≠ s ∧ Edit s.axes t.axes := by
  obtain ⟨saxes⟩ := s
  obtain ⟨taxes⟩ := t
  rw [mem_neighbours, admits_iff]
  simp only [mem_append]
  constructor
  · rintro ⟨⟨c, (hc | hc) | hc, hcanon⟩, hne, ht⟩
    · obtain ⟨pre, a, post, count, rfl, hcount, -, rfl⟩ := mem_changed.mp hc
      rw [(hs.change hcount).canonicalTiling_eq (.refl _)] at hcanon
      obtain rfl := TileSpec.mk.inj hcanon
      exact ⟨ht, hne, .change pre post a count⟩
    · obtain ⟨pre, a, post, rfl, rfl⟩ := mem_removed.mp hc
      have hlegal := hs.sublist ((List.Sublist.refl pre).append (sublist_cons_self a post))
      rw [hlegal.canonicalTiling_eq (.refl _)] at hcanon
      obtain rfl := TileSpec.mk.inj hcanon
      exact ⟨ht, hne, .remove pre post a⟩
    · obtain ⟨a, -, -, -, rfl⟩ := (mem_added hs.output).mp hc
      have hperm : taxes.Perm (saxes ++ [a]) := by
        rw [← TileSpec.mk.inj hcanon]
        exact perm_insertionSort _ _
      obtain ⟨pre, post, rfl⟩ := append_of_mem (hperm.mem_iff.mpr (by simp : a ∈ saxes ++ [a]))
      have hrest : (pre ++ post).Perm saxes := by
        have hmid := perm_middle.symm.trans (hperm.trans (perm_append_singleton a saxes))
        exact hmid.cons_inv
      have hsub := ht.sublist ((List.Sublist.refl pre).append (sublist_cons_self a post))
      obtain rfl := eq_of_perm_of_ascending hrest hsub.ascending hs.ascending
      exact ⟨ht, hne, .add pre post a⟩
  · rintro ⟨ht, hne, hedit⟩
    refine ⟨?_, hne, ht⟩
    have hcanon := ht.canonicalTiling_eq (.refl _)
    cases hedit with
    | change pre post a count =>
      have hcount : count ≠ a.count := by
        rintro rfl
        exact hne rfl
      exact ⟨_, .inl (.inl (mem_changed.mpr ⟨pre, a, post, count, rfl,
        ht.count { a with count } (by simp), hcount, rfl⟩)), hcanon⟩
    | remove pre post a =>
      exact ⟨_, .inl (.inr (mem_removed.mpr ⟨pre, a, post, rfl, rfl⟩)), hcanon⟩
    | add pre post a =>
      have hperm : (pre ++ post ++ [a]).Perm (pre ++ a :: post) :=
        (perm_append_singleton a _).trans perm_middle.symm
      have hnodup := ht.pairwise_hostDim.nodup
      have hnot : a.hostDim ∉ (pre ++ post).map TileAxis.hostDim := by
        rw [map_append, map_cons, nodup_middle, nodup_cons] at hnodup
        rw [map_append]
        exact hnodup.1
      exact ⟨⟨pre ++ post ++ [a]⟩, .inr ((mem_added hs.output).mpr ⟨a, ht.output a (by simp),
        ht.count a (by simp), hnot, rfl⟩), ht.canonicalTiling_eq hperm⟩

/-- Removing levels leads to the untiled spec. -/
theorem reaches_untiled : ∀ {axes : List TileAxis}, space.Legal axes →
    Relation.ReflTransGen (fun s t => t ∈ space.neighbours s) ⟨axes⟩ {}
  | [], _ => .refl
  | a :: axes, h => by
    have hrest := h.sublist (sublist_cons_self a axes)
    refine .head ((mem_neighbours_iff h).mpr ⟨hrest, fun heq => ?_, ?_⟩) (reaches_untiled hrest)
    · have hlen := congrArg length (TileSpec.mk.inj heq)
      simp at hlen
    · exact Edit.remove [] axes a

/-- The predicate, the list and the moves describe one set of specs : what is admitted is
enumerated once, and on it the moves are symmetric, never stay, never leave it, and reach the
untiled spec from everywhere. -/
theorem tilingSpace_consistent (space : TilingSpace)
    (hdistinct : ∀ p ∈ space.outputCounts, p.2.Nodup) :
    (∀ spec, space.admits spec ↔ spec ∈ space.enumerate) ∧ space.enumerate.Nodup ∧
      ∀ s, space.admits s →
        (∀ t, space.admits t → (t ∈ space.neighbours s ↔ s ∈ space.neighbours t)) ∧
          (∀ t ∈ space.neighbours s, space.admits t) ∧ s ∉ space.neighbours s ∧
            Relation.ReflTransGen (fun s t => t ∈ space.neighbours s) s {} := by
  refine ⟨fun spec => admits_iff.trans mem_enumerate.symm, nodup_enumerate hdistinct, ?_⟩
  intro s hs
  rw [admits_iff] at hs
  refine ⟨fun t ht => ?_, fun t ht => ?_, fun hself => ?_, reaches_untiled hs⟩
  · rw [admits_iff] at ht
    rw [mem_neighbours_iff hs, mem_neighbours_iff ht]
    constructor
    · rintro ⟨-, hne, hedit⟩
      exact ⟨hs, hne.symm, hedit.symm⟩
    · rintro ⟨-, hne, hedit⟩
      exact ⟨ht, hne.symm, hedit.symm⟩
  · exact admits_iff.mpr ((mem_neighbours_iff hs).mp ht).1
  · exact ((mem_neighbours_iff hs).mp hself).2.1 rfl

/-- Two dimensions, one level at most. -/
theorem tilingSpace_consistent_twoDims :
    let space : TilingSpace := ⟨1, [(2, [4, 8]), (0, [2])], by decide⟩
    (∀ spec, space.admits spec ↔ spec ∈ space.enumerate) ∧ space.enumerate.Nodup ∧
      ∀ s, space.admits s →
        (∀ t, space.admits t → (t ∈ space.neighbours s ↔ s ∈ space.neighbours t)) ∧
          (∀ t ∈ space.neighbours s, space.admits t) ∧ s ∉ space.neighbours s ∧
            Relation.ReflTransGen (fun s t => t ∈ space.neighbours s) s {} :=
  tilingSpace_consistent ⟨1, [(2, [4, 8]), (0, [2])], by decide⟩ (by decide)

end TilingSpace

end TorchSpyre
