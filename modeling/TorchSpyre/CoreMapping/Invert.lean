import Mathlib
import TorchSpyre.Choices
import TorchSpyre.CoreMapping.View

/-!
# Inverting a per-core view

`invert_per_core_view` in `pass_utils.py` looks for splits of an operation's loops under which each
core owns a given slice of a buffer. For each split dimension of the target it lists the loops that
can serve it. The loops it does not choose are not split, but for those a view does not see, which
do not move along the buffer or move along it by the same stride as a chosen loop ; they take every
factor of their domains. Each candidate with the right number of cores is given to the caller's
filter and to the forward map.

A split map that the forward map takes to the target is among the candidates (`mem_candidates`) :
every loop it splits is placed on a dimension of its own, or hidden behind the loop that is.
-/

open List hiding product mem_product

namespace TorchSpyre

open Checked Choices

namespace CoreMapping

namespace ViewPrep

variable (prep : ViewPrep) (domains : String → List ℕ)

/-! ## The search -/

/-- `_view_placement` : the dimension of a host stride, and how many slices of it one step takes. -/
def viewPlacement (h : ℤ) : Option (ℕ × ℕ) :=
  let stride := prep.layout.numStickStride
  (prep.directDim h).elim
    (if 0 < stride ∧ h % stride = 0 ∧ 1 < h / stride then
      prep.layout.numStickDim.map fun dim => (dim, (h / stride).toNat)
    else none)
    fun dim => some (dim, 1)

/-- A loop that can serve a dimension, with its stride and its split. -/
def optionFor (dim : ℕ × ℕ) (sym : String) : Option (ℤ × String × ℕ) :=
  if prep.depCoeff sym = 0 then none
  else (prep.viewPlacement (prep.depCoeff sym)).bind fun place =>
    if place.1 = dim.1 ∧ dim.2 % place.2 = 0 ∧ dim.2 / place.2 ∈ domains sym then
      some (prep.depCoeff sym, sym, dim.2 / place.2)
    else none

/-- The order of the options. -/
def optionLe (a b : ℤ × String × ℕ) : Prop :=
  a.1 < b.1 ∨ a.1 = b.1 ∧ a.2.1 ≤ b.2.1

instance : DecidableRel optionLe := fun a b =>
  inferInstanceAs (Decidable (a.1 < b.1 ∨ a.1 = b.1 ∧ a.2.1 ≤ b.2.1))

/-- `options_by_dim[dim]`. -/
def options (dim : ℕ × ℕ) : List (ℤ × String × ℕ) :=
  (prep.symbols.filterMap (prep.optionFor domains dim)).insertionSort optionLe

/-- The loops that a choice hides from the view. -/
def hidden (choice : List (ℤ × String × ℕ)) : List String :=
  prep.symbols.filter fun sym => sym ∉ choice.map (fun o => o.2.1) ∧
    (prep.depCoeff sym = 0 ∨ prep.depCoeff sym ∈ choice.map fun o => prep.depCoeff o.2.1)

/-- `sorted(set(domain) | {1})`. -/
def hiddenDomain (sym : String) : List ℕ :=
  (1 :: domains sym).dedup.insertionSort (· ≤ ·)

/-- The split map of a choice, with factors for the hidden loops. -/
def candidateOf (choice : List (ℤ × String × ℕ)) (hidden : List String) (combo : List ℕ) :
    String → ℕ :=
  fun sym => ((hidden.zip combo).lookup sym).getD
    (((choice.map fun o => (o.2.1, o.2.2)).lookup sym).getD 1)

/-- The candidates of one choice. One loop cannot serve two dimensions. -/
def candidatesOf (choice : List (ℤ × String × ℕ)) : List (String → ℕ) :=
  if (choice.map fun o => o.2.1).Nodup then
    (product ((prep.hidden choice).map (hiddenDomain domains))).map
      (candidateOf choice (prep.hidden choice))
  else []

/-- All candidates, in the order of the search. -/
def candidates (target : PerCoreView) : List (String → ℕ) :=
  (product ((target.workSliceDims.insertionSort fun a b => a.1 ≤ b.1).map
    (prep.options domains))).flatMap (prep.candidatesOf domains)

/-- The forward map takes a split map to the target. -/
def reaches (target : PerCoreView) (splits : String → ℕ) : Bool :=
  (prep.perCoreViewFromPrep splits).toOption.any fun view => view.samePartition target

/-- The loop over the candidates. Returns also the number of probes. -/
def probe (target : PerCoreView) (accept : (String → ℕ) → Bool) (maxProbes : ℕ) :
    ℕ → List (String → ℕ) → Option (String → ℕ) × ℕ
  | probes, [] => (none, probes)
  | probes, splits :: rest =>
    if target.numCores.any fun n => (prep.coreCount splits : ℤ) ≠ n then
      probe target accept maxProbes probes rest
    else if maxProbes < probes + 1 then (none, probes + 1)
    else if accept splits && prep.reaches target splits then (some splits, probes + 1)
    else probe target accept maxProbes (probes + 1) rest

/-- `invert_per_core_view`, with the number of probes it made. -/
def invertPerCoreView (target : PerCoreView) (accept : (String → ℕ) → Bool) (maxProbes : ℕ) :
    Option (String → ℕ) × ℕ :=
  if target.workSliceDims.any fun dim => (prep.options domains dim).isEmpty then (none, 0)
  else prep.probe target accept maxProbes 0 (prep.candidates domains target)

/-! ## The probes -/

section Probe

variable {prep} {target : PerCoreView} {accept : (String → ℕ) → Bool} {maxProbes : ℕ}

theorem probe_some : ∀ {l : List (String → ℕ)} {probes : ℕ} {splits : String → ℕ},
    (prep.probe target accept maxProbes probes l).1 = some splits →
      splits ∈ l ∧ accept splits = true ∧ prep.reaches target splits = true
  | [], _, _, h => by cases h
  | c :: rest, probes, splits, h => by
    rw [probe] at h
    split_ifs at h with hcores hmax hfound
    · obtain ⟨hmem, hrest⟩ := probe_some h
      exact ⟨mem_cons_of_mem c hmem, hrest⟩
    · obtain rfl := Option.some.inj h
      exact ⟨mem_cons_self, Bool.and_eq_true_iff.1 hfound⟩
    · obtain ⟨hmem, hrest⟩ := probe_some h
      exact ⟨mem_cons_of_mem c hmem, hrest⟩

/-- A search that did not give up has seen every candidate. -/
theorem probe_ne_none {n : ℤ} (hn : target.numCores = some n) :
    ∀ {l : List (String → ℕ)} {probes : ℕ},
      (prep.probe target accept maxProbes probes l).2 < maxProbes →
      (∃ splits ∈ l, (prep.coreCount splits : ℤ) = n ∧ accept splits = true ∧
        prep.reaches target splits = true) →
      (prep.probe target accept maxProbes probes l).1 ≠ none
  | [], _, _, ⟨_, hmem, _⟩ => absurd hmem not_mem_nil
  | c :: rest, probes, hlt, ⟨splits, hmem, hcount, haccept, hreach⟩ => by
    rw [probe] at hlt ⊢
    split_ifs at hlt ⊢ with hcores hmax hfound
    · rcases mem_cons.1 hmem with rfl | hmem
      · rw [hn] at hcores
        exact absurd hcount (by simpa using hcores)
      · exact probe_ne_none hn hlt ⟨splits, hmem, hcount, haccept, hreach⟩
    · have hlt : probes + 1 < maxProbes := hlt
      omega
    · exact Option.some_ne_none c
    · rcases mem_cons.1 hmem with rfl | hmem
      · exact absurd (Bool.and_eq_true_iff.2 ⟨haccept, hreach⟩) hfound
      · exact probe_ne_none hn hlt ⟨splits, hmem, hcount, haccept, hreach⟩

end Probe

/-! ## What the forward map places -/

section Places

variable {prep} {splits : String → ℕ}

/-- A dictionary of the split loops of `done`, by their strides. -/
structure Strided (prep : ViewPrep) (splits : String → ℕ) (done : List String)
    (dict : List (ℤ × ℕ × String)) : Prop where
  mem : ∀ e ∈ dict, e.2.2 ∈ done ∧ e = (prep.depCoeff e.2.2, splits e.2.2, e.2.2)
  split : ∀ e ∈ dict, 1 < e.2.1 ∧ e.1 ≠ 0
  nodup : (dict.map Prod.fst).Nodup
  covers : ∀ sym ∈ done, 1 < splits sym → prep.depCoeff sym ≠ 0 →
    prep.depCoeff sym ∈ dict.map Prod.fst

theorem Strided.step {done : List String} {dict : List (ℤ × ℕ × String)} {sym : String}
    (h : prep.Strided splits done dict) :
    prep.Strided splits (done ++ [sym]) (prep.strideSplit splits dict sym) := by
  rw [strideSplit]
  split_ifs with hskip
  · refine ⟨fun e he => ⟨mem_append_left _ (h.mem e he).1, (h.mem e he).2⟩, h.split, h.nodup,
      fun s hs hsplit hstride => ?_⟩
    rcases mem_append.1 hs with hs | hs
    · exact h.covers s hs hsplit hstride
    · obtain rfl := mem_singleton.1 hs
      exact absurd hskip (not_or.2 ⟨not_le.2 hsplit, hstride⟩)
  · obtain ⟨hsplit, hstride⟩ := not_or.1 hskip
    refine ⟨forall_mem_cons.2 ⟨by simp, fun e he => ?_⟩,
      forall_mem_cons.2 ⟨⟨not_le.1 hsplit, hstride⟩, fun e he => ?_⟩, ?_, fun s hs hs1 hs2 => ?_⟩
    · have he := h.mem e (mem_filter.1 he).1
      exact ⟨mem_append_left _ he.1, he.2⟩
    · exact h.split e (mem_filter.1 he).1
    · rw [map_cons, nodup_cons]
      refine ⟨fun hmem => ?_, h.nodup.sublist (filter_sublist.map _)⟩
      obtain ⟨e, he, heq⟩ := mem_map.1 hmem
      exact absurd heq (by simpa using (mem_filter.1 he).2)
    · by_cases heq : prep.depCoeff s = prep.depCoeff sym
      · rw [heq]
        exact mem_map_of_mem mem_cons_self
      · have hdone : s ∈ done := by
          rcases mem_append.1 hs with hs | hs
          · exact hs
          · exact absurd (congrArg prep.depCoeff (mem_singleton.1 hs)) heq
        obtain ⟨e, he, hes⟩ := mem_map.1 (h.covers s hdone hs1 hs2)
        refine mem_map.2 ⟨e, mem_cons_of_mem _ (mem_filter.2 ⟨he, ?_⟩), hes⟩
        simpa [hes] using heq

theorem splitsByStride_strided (prep : ViewPrep) (splits : String → ℕ) :
    prep.Strided splits prep.symbols (prep.splitsByStride splits) := by
  have hrun : prep.Strided splits prep.symbols
      (prep.symbols.foldl (prep.strideSplit splits) []) := by
    induction prep.symbols using List.reverseRecOn with
    | nil => exact ⟨by simp, by simp, by simp, by simp⟩
    | append_singleton done sym ih =>
      rw [foldl_append, foldl_cons, foldl_nil]
      exact ih.step
  have hperm := perm_insertionSort (fun a b : ℤ × ℕ × String => a.1 ≤ b.1)
    (prep.symbols.foldl (prep.strideSplit splits) [])
  refine ⟨fun e he => hrun.mem e (hperm.mem_iff.1 he),
    fun e he => hrun.split e (hperm.mem_iff.1 he),
    (hperm.map Prod.fst).nodup_iff.2 hrun.nodup, fun sym hsym h1 h2 => ?_⟩
  exact (hperm.map Prod.fst).mem_iff.2 (hrun.covers sym hsym h1 h2)

/-- The dimension a stride is placed on, and the split on it. -/
def placedAt (prep : ViewPrep) (e : ℤ × ℕ × String) : ℕ × ℕ × String :=
  let place := (prep.viewPlacement e.1).getD (0, 1)
  (place.1, e.2.1 * place.2, e.2.2)

/-- A proposal of the forward map is a placement. -/
theorem viewPlacement_of_proposal {h : ℤ} {split dim : ℕ} (hne : h ≠ 0) (hsplit : 1 < split)
    (hdim : (prep.proposal h split).1 = some dim) :
    ∃ k, 0 < k ∧ prep.viewPlacement h = some (dim, k) ∧ (prep.proposal h split).2 = split * k := by
  rw [proposal] at hdim ⊢
  split_ifs at hdim ⊢ with hrescue
  · obtain ⟨hnone, hpos, hmod, hcover⟩ := hrescue
    have heq := Int.mul_ediv_add_emod h prep.layout.numStickStride
    rw [hmod, add_zero] at heq
    have hk : 1 < h / prep.layout.numStickStride := by
      rcases lt_trichotomy (h / prep.layout.numStickStride) 1 with hlt | hone | hgt
      · -- the split covers all sticks, so the step is not negative
        have hnonneg : 0 ≤ (split : ℤ) * (h / prep.layout.numStickStride) := by
          rw [hcover]
          exact Int.natCast_nonneg _
        have hstep := nonneg_of_mul_nonneg_right hnonneg (by omega)
        rw [show h / prep.layout.numStickStride = 0 by omega, mul_zero] at heq
        exact absurd heq.symm hne
      · -- a step of one stick is found directly
        rw [hone, mul_one] at heq
        rw [directDim] at hnone
        split_ifs at hnone with hstick
        · exact absurd (hdim.symm.trans hnone) (Option.some_ne_none dim)
        · rw [← heq, DeviceLayout.lookup_numStickStride hdim] at hnone
          exact absurd hnone (Option.some_ne_none dim)
      · exact hgt
    refine ⟨(h / prep.layout.numStickStride).toNat, by omega, ?_, rfl⟩
    have hcount : prep.layout.numStickDim = some dim := hdim
    rw [viewPlacement, hnone, Option.elim_none, if_pos ⟨hpos, hmod, hk⟩, hcount, Option.map_some]
  · have hdirect : prep.directDim h = some dim := hdim
    exact ⟨1, one_pos, by rw [viewPlacement, hdirect, Option.elim_some], (mul_one split).symm⟩

/-- The placement of one split. -/
theorem placeSplit_ok {placed placed' : List (ℕ × ℕ × String)} {e : ℤ × ℕ × String}
    (he : 1 < e.2.1 ∧ e.1 ≠ 0) (h : prep.placeSplit splits placed e = .ok placed') :
    (∃ place, prep.viewPlacement e.1 = some place ∧ 0 < place.2) ∧
      placed' = placed ++ [prep.placedAt e] ∧ (prep.placedAt e).1 ∉ placed.map Prod.fst := by
  obtain ⟨_, -, h⟩ := bind_eq_ok_iff.1 h
  dsimp only at h
  cases hdim : (prep.proposal e.1 e.2.1).1.filter
      (prep.owns splits e.1 e.2.2 (prep.proposal e.1 e.2.1).2) with
  | none =>
    rw [hdim] at h
    cases h
  | some dim =>
    rw [hdim, Option.elim_some] at h
    obtain ⟨_, -, h⟩ := bind_eq_ok_iff.1 h
    obtain ⟨_, hnew, h⟩ := bind_eq_ok_iff.1 h
    obtain rfl := Except.ok.inj h
    obtain ⟨k, hk, hplace, hsplit⟩ :=
      viewPlacement_of_proposal he.2 he.1 (Option.filter_eq_some_iff.1 hdim).1
    have hat : prep.placedAt e = (dim, (prep.proposal e.1 e.2.1).2, e.2.2) := by
      rw [placedAt, hplace, Option.getD_some, hsplit]
    exact ⟨⟨_, hplace, hk⟩, by rw [hat], by rw [hat]; exact (guardE_eq_ok_iff.1 hnew).1⟩

/-- Every split that moves along the buffer is placed, on a dimension of its own. -/
theorem placed_of_ok {placed : List (ℕ × ℕ × String)} {entries : List (ℤ × ℕ × String)}
    (hsplit : ∀ e ∈ entries, 1 < e.2.1 ∧ e.1 ≠ 0)
    (h : foldE (prep.placeSplit splits) [] entries = .ok placed) :
    placed = entries.map prep.placedAt ∧ (placed.map Prod.fst).Nodup ∧
      ∀ e ∈ entries, ∃ place, prep.viewPlacement e.1 = some place ∧ 0 < place.2 := by
  refine foldE_inv (I := fun done placed => placed = done.map prep.placedAt ∧
    (placed.map Prod.fst).Nodup ∧
      ∀ e ∈ done, ∃ place, prep.viewPlacement e.1 = some place ∧ 0 < place.2) ?_
    ⟨rfl, nodup_nil, fun e he => absurd he not_mem_nil⟩ h
  rintro done e rest placed placed' rfl ⟨rfl, hnodup, hplaces⟩ hstep
  obtain ⟨hplace, rfl, hnew⟩ := placeSplit_ok (hsplit e (by simp)) hstep
  refine ⟨by rw [map_append, map_singleton], ?_, fun e' he' => ?_⟩
  · rw [map_append, map_singleton, nodup_append]
    refine ⟨hnodup, nodup_singleton _, fun d hd d' hd' => ?_⟩
    rw [mem_singleton.1 hd']
    exact fun heq => hnew (heq ▸ hd)
  · rcases mem_append.1 he' with he' | he'
    · exact hplaces e' he'
    · rw [mem_singleton.1 he']
      exact hplace

/-- A representable view splits the dimensions its splits are placed on. -/
theorem view_of_ok {view : PerCoreView} (h : prep.perCoreViewFromPrep splits = .ok view) :
    view.workSliceDims.Perm ((prep.splitsByStride splits).map fun e =>
        ((prep.placedAt e).1, (prep.placedAt e).2.1)) ∧
      (view.workSliceDims.map Prod.fst).Nodup ∧ view.numCores = some (prep.coreCount splits : ℤ) ∧
      ∀ e ∈ prep.splitsByStride splits,
        ∃ place, prep.viewPlacement e.1 = some place ∧ 0 < place.2 := by
  have hstrided := splitsByStride_strided prep splits
  rw [perCoreViewFromPrep] at h
  split_ifs at h with hunsplit
  · obtain rfl := Except.ok.inj h
    have hnil : prep.splitsByStride splits = [] := by
      refine eq_nil_iff_forall_not_mem.2 fun e he => ?_
      obtain ⟨hsym, heq⟩ := hstrided.mem e he
      have hle := hunsplit e.2.2 hsym
      have hlt := (hstrided.split e he).1
      rw [heq] at hlt
      exact absurd hle (not_le.2 hlt)
    rw [hnil]
    exact ⟨.refl _, nodup_nil, rfl, fun e he => absurd he not_mem_nil⟩
  · obtain ⟨placed, hplaced, h⟩ := bind_eq_ok_iff.1 h
    obtain ⟨mapping, -, h⟩ := bind_eq_ok_iff.1 h
    obtain rfl := Except.ok.inj h
    obtain ⟨rfl, hnodup, hplaces⟩ := placed_of_ok hstrided.split hplaced
    have hperm := perm_insertionSort (fun a b : ℕ × ℕ => a.1 ≤ b.1)
      (((prep.splitsByStride splits).map prep.placedAt).map fun p => (p.1, p.2.1))
    refine ⟨?_, ?_, rfl, hplaces⟩
    · refine hperm.trans ?_
      rw [map_map]
      exact .refl _
    · refine (hperm.map Prod.fst).nodup_iff.2 ?_
      rw [map_map]
      exact hnodup

/-- The forward map gives one pair for each dimension that is split. -/
theorem proper_of_ok {view : PerCoreView} (h : prep.perCoreViewFromPrep splits = .ok view) :
    view.Proper := by
  obtain ⟨hperm, hnodup, -, hplaces⟩ := view_of_ok h
  refine ⟨hnodup, fun d hd => ?_⟩
  obtain ⟨e, he, rfl⟩ := mem_map.1 (hperm.mem_iff.1 hd)
  obtain ⟨place, hplace, hpos⟩ := hplaces e he
  have hlt := ((splitsByStride_strided prep splits).split e he).1
  simp only [placedAt, hplace, Option.getD_some]
  exact hlt.trans_le (Nat.le_mul_of_pos_right _ hpos)

end Places

/-! ## The candidates -/

section Candidates

variable {prep domains} {target view : PerCoreView} {splits : String → ℕ}

theorem mem_hiddenDomain {sym : String} {s : ℕ} :
    s ∈ hiddenDomain domains sym ↔ s ∈ domains sym ∨ s = 1 := by
  rw [hiddenDomain, (perm_insertionSort _ _).mem_iff, mem_dedup, mem_cons, or_comm]

/-- A loop that the forward map places can serve its dimension. -/
theorem mem_options {e : ℤ × ℕ × String} (he : e ∈ prep.splitsByStride splits)
    (hplaces : ∃ place, prep.viewPlacement e.1 = some place ∧ 0 < place.2)
    (hdomain : ∀ sym ∈ prep.symbols, splits sym ∈ domains sym ∨ splits sym = 1) :
    (e.1, e.2.2, e.2.1) ∈
      prep.options domains ((prep.placedAt e).1, (prep.placedAt e).2.1) := by
  have hstrided := splitsByStride_strided prep splits
  obtain ⟨hsym, heq⟩ := hstrided.mem e he
  obtain ⟨hsplit, hne⟩ := hstrided.split e he
  obtain ⟨place, hplace, hpos⟩ := hplaces
  have hcoeff : prep.depCoeff e.2.2 = e.1 := (congrArg Prod.fst heq).symm
  have hfactor : splits e.2.2 = e.2.1 := (congrArg (fun e => e.2.1) heq).symm
  have hin : e.2.1 ∈ domains e.2.2 := by
    rcases hdomain e.2.2 hsym with h | h
    · exact hfactor ▸ h
    · omega
  rw [options, (perm_insertionSort _ _).mem_iff, mem_filterMap]
  refine ⟨e.2.2, hsym, ?_⟩
  rw [optionFor, hcoeff, if_neg hne, hplace, Option.bind_some, placedAt, hplace, Option.getD_some,
    Nat.mul_div_cancel _ hpos, if_pos ⟨rfl, Nat.mul_mod_left _ _, hin⟩]

theorem domain_of_mem_options {dim : ℕ × ℕ} {o : ℤ × String × ℕ}
    (h : o ∈ prep.options domains dim) : o.2.1 ∈ prep.symbols ∧ o.2.2 ∈ domains o.2.1 := by
  rw [options, (perm_insertionSort _ _).mem_iff, mem_filterMap] at h
  obtain ⟨sym, hsym, h⟩ := h
  rw [optionFor] at h
  split_ifs at h with hzero
  obtain ⟨place, -, h⟩ := Option.bind_eq_some_iff.1 h
  split_ifs at h with hserves
  obtain rfl := Option.some.inj h
  exact ⟨hsym, hserves.2.2⟩

/-- The candidate of the placed loops is the split map they come from. -/
theorem candidateOf_eq {entries : List (ℤ × ℕ × String)}
    (hperm : (prep.splitsByStride splits).Perm entries) (houtside : ∀ sym, sym ∉ prep.symbols →
      splits sym = 1) (hpos : ∀ sym ∈ prep.symbols, 0 < splits sym) :
    let choice := entries.map fun e => (e.1, e.2.2, e.2.1)
    candidateOf choice (prep.hidden choice) ((prep.hidden choice).map splits) = splits := by
  intro choice
  have hstrided := splitsByStride_strided prep splits
  have hentry : ∀ e ∈ entries, e = (prep.depCoeff e.2.2, splits e.2.2, e.2.2) :=
    fun e he => (hstrided.mem e (hperm.mem_iff.2 he)).2
  have hpairs : (choice.map fun o => (o.2.1, o.2.2)) =
      (entries.map fun e => e.2.2).map fun sym => (sym, splits sym) := by
    rw [map_map, map_map]
    refine map_congr_left fun e he => ?_
    rw [hentry e he]
    rfl
  funext sym
  rw [candidateOf, hpairs, ← map_prod_left_eq_zip, Lists.lookup_map_pair, Lists.lookup_map_pair]
  by_cases hhidden : sym ∈ prep.hidden choice
  · rw [if_pos hhidden, Option.getD_some]
  · rw [if_neg hhidden, Option.getD_none]
    by_cases hplaced : sym ∈ entries.map fun e => e.2.2
    · rw [if_pos hplaced, Option.getD_some]
    · rw [if_neg hplaced, Option.getD_none]
      by_cases hsym : sym ∈ prep.symbols
      · -- a split loop that is not placed shares its stride with one that is
        have hone := hpos sym hsym
        by_contra hne
        refine hhidden (mem_filter.2 ⟨hsym, decide_eq_true ⟨?_, ?_⟩⟩)
        · rw [map_map]
          exact hplaced
        · by_cases hzero : prep.depCoeff sym = 0
          · exact .inl hzero
          · obtain ⟨e, he, hes⟩ := mem_map.1 (hstrided.covers sym hsym (by omega) hzero)
            refine .inr (mem_map.2 ⟨_, mem_map_of_mem (hperm.mem_iff.1 he), ?_⟩)
            rw [← hes]
            exact (congrArg Prod.fst (hstrided.mem e he).2).symm
      · exact (houtside sym hsym).symm

/-- A split map that the forward map takes to the target is a candidate. -/
theorem mem_candidates (htarget : target.Proper) (houtside : ∀ sym, sym ∉ prep.symbols →
      splits sym = 1) (hdomain : ∀ sym ∈ prep.symbols, splits sym ∈ domains sym ∨ splits sym = 1)
    (hview : prep.perCoreViewFromPrep splits = .ok view)
    (hsame : view.samePartition target = true) :
    splits ∈ prep.candidates domains target ∧
      ∀ dim ∈ target.workSliceDims, prep.options domains dim ≠ [] := by
  obtain ⟨hdims, -, hcores, hplaces⟩ := view_of_ok hview
  obtain ⟨hperm, hpos, -⟩ :=
    PerCoreView.perm_of_samePartition (proper_of_ok hview) htarget hsame
  have hsorted := perm_insertionSort (fun a b : ℕ × ℕ => a.1 ≤ b.1) target.workSliceDims
  obtain ⟨entries, hentries, hmap⟩ := Lists.exists_perm_of_map_perm
    (hdims.symm.trans (hperm.trans hsorted.symm))
  have hoption : ∀ e ∈ entries, (e.1, e.2.2, e.2.1) ∈
      prep.options domains ((prep.placedAt e).1, (prep.placedAt e).2.1) := fun e he =>
    mem_options (hentries.mem_iff.2 he) (hplaces e (hentries.mem_iff.2 he)) hdomain
  have hfactors : ∀ sym ∈ prep.symbols, 0 < splits sym := by
    intro sym hsym
    refine Nat.pos_of_ne_zero fun hzero => ?_
    rw [PerCoreView.cores, hcores, Option.getD_some, coreCount,
      prod_eq_zero (hzero ▸ mem_map_of_mem hsym)] at hpos
    exact absurd hpos (by simp)
  have hstrided := splitsByStride_strided prep splits
  refine ⟨mem_flatMap.2 ⟨entries.map fun e => (e.1, e.2.2, e.2.1), ?_, ?_⟩, fun dim hdim => ?_⟩
  · rw [mem_product, ← hmap, map_map, forall₂_map_left_iff, forall₂_map_right_iff, forall₂_same]
    exact hoption
  · have hsyms : ((entries.map fun e => (e.1, e.2.2, e.2.1)).map fun o => o.2.1).Nodup := by
      have hstrides : (entries.map fun e => prep.depCoeff e.2.2) = entries.map Prod.fst :=
        map_congr_left fun e he =>
          (congrArg Prod.fst (hstrided.mem e (hentries.mem_iff.2 he)).2).symm
      refine List.Nodup.of_map prep.depCoeff ?_
      rw [map_map, map_map]
      exact hstrides ▸ (hentries.map Prod.fst).nodup_iff.1 hstrided.nodup
    rw [candidatesOf, if_pos hsyms]
    refine mem_map.2 ⟨_, mem_product.2 ?_, candidateOf_eq hentries houtside hfactors⟩
    rw [forall₂_map_left_iff, forall₂_map_right_iff, forall₂_same]
    exact fun sym hsym => mem_hiddenDomain.2 (hdomain sym (mem_filter.1 hsym).1)
  · rw [← hsorted.mem_iff, ← hmap] at hdim
    obtain ⟨e, he, rfl⟩ := mem_map.1 hdim
    exact ne_nil_of_mem (hoption e he)

/-- The factors of a candidate lie in their domains. -/
theorem domain_of_mem_candidates (h : splits ∈ prep.candidates domains target) :
    (∀ sym, sym ∉ prep.symbols → splits sym = 1) ∧
      ∀ sym ∈ prep.symbols, splits sym ∈ domains sym ∨ splits sym = 1 := by
  obtain ⟨choice, hchoice, h⟩ := mem_flatMap.1 h
  rw [candidatesOf] at h
  split_ifs at h with hnodup
  · obtain ⟨combo, hcombo, rfl⟩ := mem_map.1 h
    rw [mem_product, forall₂_map_right_iff] at hcombo
    have hhidden : ∀ {sym s}, ((prep.hidden choice).zip combo).lookup sym = some s →
        sym ∈ prep.symbols ∧ (s ∈ domains sym ∨ s = 1) := by
      intro sym s hlookup
      have hmem := Lists.mem_of_lookup hlookup
      refine ⟨(mem_filter.1 (of_mem_zip hmem).1).1, mem_hiddenDomain.1 ?_⟩
      exact forall₂_zip (List.Forall₂.flip hcombo) hmem
    have hplaced : ∀ {sym s}, (choice.map fun o => (o.2.1, o.2.2)).lookup sym = some s →
        sym ∈ prep.symbols ∧ s ∈ domains sym := by
      intro sym s hlookup
      obtain ⟨o, ho, heq⟩ := mem_map.1 (Lists.mem_of_lookup hlookup)
      obtain ⟨rfl, rfl⟩ := Prod.mk.inj heq
      obtain ⟨l, hl, hol⟩ := exists_of_mem_product hchoice ho
      obtain ⟨dim, -, rfl⟩ := mem_map.1 hl
      exact domain_of_mem_options hol
    have hcases : ∀ sym, candidateOf choice (prep.hidden choice) combo sym = 1 ∨
        sym ∈ prep.symbols ∧
          candidateOf choice (prep.hidden choice) combo sym ∈ domains sym := by
      intro sym
      rw [candidateOf]
      cases hh : ((prep.hidden choice).zip combo).lookup sym with
      | some s =>
        obtain ⟨hsym, hs | hs⟩ := hhidden hh
        · exact .inr ⟨hsym, hs⟩
        · exact .inl hs
      | none =>
        cases hp : (choice.map fun o => (o.2.1, o.2.2)).lookup sym with
        | some s => exact .inr (hplaced hp)
        | none => exact .inl rfl
    refine ⟨fun sym hsym => (hcases sym).resolve_right fun h => hsym h.1, fun sym _ => ?_⟩
    exact (hcases sym).symm.imp_left And.right
  · cases h

end Candidates

/-- A split map that satisfies the caller and has the target as its view. -/
structure Inverts (domains : String → List ℕ) (target : PerCoreView)
    (accept : (String → ℕ) → Bool) (splits : String → ℕ) : Prop where
  outside : ∀ sym, sym ∉ prep.symbols → splits sym = 1
  domain : ∀ sym ∈ prep.symbols, splits sym ∈ domains sym ∨ splits sym = 1
  accepted : accept splits = true
  view : ∃ view, prep.perCoreViewFromPrep splits = .ok view ∧ view.samePartition target = true

theorem reaches_iff {prep : ViewPrep} {target : PerCoreView} {splits : String → ℕ} :
    prep.reaches target splits = true ↔
      ∃ view, prep.perCoreViewFromPrep splits = .ok view ∧ view.samePartition target = true := by
  rw [reaches]
  cases hview : prep.perCoreViewFromPrep splits with
  | error e => simp [Except.toOption]
  | ok view => simp [Except.toOption]

/-- What `invert_per_core_view` returns inverts the forward map, and it finds a split map with the
target's number of cores if there is one and it does not run out of probes. -/
theorem invertPerCoreView_inverts (target : PerCoreView) (htarget : target.Proper) (n : ℤ)
    (hn : target.numCores = some n) (accept : (String → ℕ) → Bool) (maxProbes : ℕ) :
    (∀ splits, (prep.invertPerCoreView domains target accept maxProbes).1 = some splits →
      prep.Inverts domains target accept splits) ∧
    ((prep.invertPerCoreView domains target accept maxProbes).2 < maxProbes →
      (∃ splits, prep.Inverts domains target accept splits ∧ (prep.coreCount splits : ℤ) = n) →
      (prep.invertPerCoreView domains target accept maxProbes).1 ≠ none) := by
  constructor
  · intro splits h
    rw [invertPerCoreView] at h
    split_ifs at h with hempty
    obtain ⟨hmem, haccept, hreach⟩ := probe_some h
    obtain ⟨houtside, hdomain⟩ := domain_of_mem_candidates hmem
    exact ⟨houtside, hdomain, haccept, reaches_iff.1 hreach⟩
  · rintro hlt ⟨splits, hinv, hcount⟩
    obtain ⟨view, hview, hsame⟩ := hinv.view
    obtain ⟨hmem, hoptions⟩ :=
      mem_candidates htarget hinv.outside hinv.domain hview hsame
    have hnonempty : ¬(target.workSliceDims.any fun dim =>
        (prep.options domains dim).isEmpty) = true := by
      intro hany
      obtain ⟨dim, hdim, hempty⟩ := any_eq_true.1 hany
      exact hoptions dim hdim (isEmpty_iff.1 hempty)
    rw [invertPerCoreView, if_neg hnonempty] at hlt ⊢
    exact probe_ne_none hn hlt
      ⟨splits, hmem, hcount, hinv.accepted, reaches_iff.2 hinv.view⟩

/-- A product of `64 × 128` elements, with rows of two sticks, and a reduction. -/
def matmulPrep : ViewPrep where
  layout := ⟨[2, 64, 64], [64, 128, 1], 64⟩
  iterSpace := [("m", 64), ("n", 128), ("k", 256)]
  depCoeff sym := if sym = "m" then 128 else if sym = "n" then 1 else 0
  freeSymbols := [["n"], ["m"], ["n"]]
  ownershipFails _ _ _ _ _ := false
  kFast := false
  nodup := by decide

/-- Rows in four parts, sticks in two, and each part on two cores. -/
def quarterRows : PerCoreView where
  workSliceDims := [(0, 2), (1, 4)]
  coreToSlot := [(0, fun core => some (core / 4 % 2 : ℕ)), (1, fun core => some (core % 4 : ℕ))]
  numCores := some 16

/-- The reduction is split in two, which the view does not show. -/
theorem invertPerCoreView_inverts_matmul : (matmulPrep.invertPerCoreView (fun _ => [1, 2, 4])
    quarterRows (fun splits => splits "k" ≤ 2) 256).1 ≠ none := by
  refine (invertPerCoreView_inverts matmulPrep (fun _ => [1, 2, 4]) quarterRows
    ⟨by decide, by decide⟩ 16 rfl (fun splits => splits "k" ≤ 2) 256).2 (by decide +kernel)
    ⟨fun sym => if sym = "m" then 4 else if sym = "n" ∨ sym = "k" then 2 else 1,
      ⟨fun sym hsym => ?_, by decide, by decide, reaches_iff.1 (by decide +kernel)⟩, rfl⟩
  have hne : sym ≠ "m" ∧ sym ≠ "n" ∧ sym ≠ "k" := by
    simpa [symbols, matmulPrep] using hsym
  simp [hne]

end ViewPrep

end CoreMapping

end TorchSpyre
