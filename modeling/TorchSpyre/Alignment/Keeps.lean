import Mathlib
import TorchSpyre.Contiguous
import TorchSpyre.Alignment.Tensors

/-!
# Alignment keeps addresses

A new tensor has the address of the old one over the digits of the segments (`aligned_address`).
What the code does not check is what `Inputs.Regular` asks for : strides that fill their dimensions,
more than one term, fused neighbours without padding, boundaries that divide each other, and
dimensions with room for all boundaries inside them. An offset is kept on the innermost term of a
run, and where the term has no denominator (`Inputs.Steady`). -/

open List

namespace TorchSpyre

open Checked Radix

namespace Alignment

/-! ## All tensors -/

/-- The iteration points. -/
def Inputs.points (inp : Inputs) : Set (Var → ℕ) :=
  Points ((List.range inp.space.length).map fun i => (.loop i, inp.ranges i))

/-- The points of the new iteration space. -/
def Outputs.points (out : Outputs) : Set (Var → ℕ) :=
  Points (out.space.map fun s => (s.1.new, s.1.range))

/-- Coordinates are sums of terms in different loop variables with coefficients that divide each
other, and stay in bounds. -/
structure Inputs.Admitted (inp : Inputs) : Prop where
  coords : ∀ tensor ∈ inp.tensors, ∀ d ∈ tensor, d.2.Admitted inp.space.length
  inBounds : ∀ pt ∈ inp.points, ∀ tensor ∈ inp.tensors, ∀ d ∈ tensor, d.2.eval pt < d.1

/-- Tensors are neat, the boundaries of a loop variable run from one to its range and divide each
other, and the terms of every tensor fit to them. -/
structure Inputs.Regular (inp : Inputs) : Prop where
  neat : ∀ tensor ∈ inp.tensors, tensor.Neat inp.ranges inp.rangeOf
  cut : ∀ Ns, mapE (joined inp.ranges) inp.tensors = .ok Ns → ∀ i < inp.space.length,
    Cut (inp.ranges i) (splits inp.repeats Ns (.loop i))
  fits : ∀ Ns, mapE (joined inp.ranges) inp.tensors = .ok Ns → ∀ N ∈ Ns,
    N.Fits (splits inp.repeats Ns) inp.rangeOf

/-- Offsets stand on innermost terms of runs and are peeled exactly. -/
structure Inputs.Steady (inp : Inputs) : Prop where
  settled : ∀ tensor ∈ inp.tensors, tensor.Settled inp.ranges
  peels : ∀ Ns, mapE (joined inp.ranges) inp.tensors = .ok Ns → ∀ N ∈ Ns,
    N.Peels (splits inp.repeats Ns)

section Align

variable {inp : Inputs} {out : Outputs}

variable {Ns : List Normal} {N : Normal} {tensor : Tensor} {t : Term} {pt range : Var → ℕ}
  {k m n : ℕ} {ranges : ℕ → ℕ}

theorem mem_allVars {v : Var} :
    v ∈ allVars n m ↔ (∃ i < n, v = .loop i) ∨ ∃ k < m, v = .synth k := by
  simp [allVars, eq_comm]

theorem nodup_allVars (n m : ℕ) : (allVars n m).Nodup := by
  refine nodup_append.mpr ⟨nodup_range.map fun a b h => by cases h; rfl,
    nodup_range.map fun a b h => by cases h; rfl, ?_⟩
  intro a ha b hb hab
  obtain ⟨i, -, rfl⟩ := mem_map.mp ha
  obtain ⟨k, -, rfl⟩ := mem_map.mp hb
  cases hab

theorem le_sharedSynths (h : N ∈ Ns) :
    N.synths ≤ sharedSynths Ns :=
  le_max_of_le (mem_map_of_mem h) le_rfl

theorem mem_points :
    pt ∈ Points ((List.range n).map fun i => (Var.loop i, ranges i)) ↔
      (∀ i < n, pt (.loop i) < ranges i) ∧ ∀ v, (∀ i < n, v ≠ .loop i) → pt v = 0 := by
  refine and_congr (by simp) (forall_congr' fun v => imp_congr ?_ Iff.rfl)
  simp [eq_comm]

/-- Synthetic variables of range one add no points. -/
theorem points_allVars (m : ℕ) :
    Points ((allVars inp.space.length m).map fun v => (v, inp.rangeOf v)) = inp.points := by
  ext pt
  rw [Inputs.points, mem_points]
  constructor
  · rintro ⟨hlt, hzero⟩
    have hlt' : ∀ v ∈ allVars inp.space.length m, pt v < inp.rangeOf v := fun v hv =>
      hlt (v, inp.rangeOf v) (mem_map_of_mem hv)
    refine ⟨fun i hi => hlt' (.loop i) (mem_allVars.mpr (Or.inl ⟨i, hi, rfl⟩)), fun v hv => ?_⟩
    by_cases hmem : v ∈ allVars inp.space.length m
    · rcases mem_allVars.mp hmem with ⟨i, hi, rfl⟩ | ⟨k, hk, rfl⟩
      · exact absurd rfl (hv i hi)
      · exact Nat.lt_one_iff.mp (hlt' _ hmem)
    · exact hzero v (by simpa using hmem)
  · rintro ⟨hlt, hzero⟩
    refine ⟨fun p hp => ?_, fun v hv => hzero v fun i hi hvi => hv ?_⟩
    · obtain ⟨v, hv, rfl⟩ := mem_map.mp hp
      rcases mem_allVars.mp hv with ⟨i, hi, rfl⟩ | ⟨k, hk, rfl⟩
      · exact hlt i hi
      · dsimp only
        rw [hzero (.synth k) fun i _ h => by cases h]
        exact Nat.one_pos
    · subst hvi
      simp only [map_map, mem_map, Function.comp_apply]
      exact ⟨.loop i, mem_allVars.mpr (Or.inl ⟨i, hi, rfl⟩), rfl⟩

theorem length_divideWork :
    ∀ (bases : List ℕ) (div : ℕ), (divideWork bases div).1.length = bases.length
  | [], _ => rfl
  | _ :: bases, div => by simp [divideWork, length_divideWork bases div]

theorem divideVar_segments (Ns : List Normal) (split : List ℕ) (div : ℕ) (segs : List Segment) :
    (divideVar Ns split div segs).1.map Prod.fst = segs := by
  unfold divideVar
  split_ifs
  · exact map_fst_zip (by simp [length_divideWork])
  · simp [map_map, Function.comp_def]

/-- What an alignment that succeeds has made. -/
theorem alignTensorsPure_cases (h : alignTensorsPure inp = .ok out) :
    ∃ Ns, mapE (normalizeCoordinates inp.ranges) inp.tensors = .ok Ns ∧
      let split := splits inp.repeats Ns
      let segs := segments inp.rangeOf split (sharedSynths Ns)
        (allVars inp.space.length (sharedSynths Ns))
      (out.space.map Prod.fst).Perm segs ∧
        ∃ aligned rank, mapE (alignTensor split (newVar segs))
            (Ns.map (insertSynths (sharedSynths Ns))) = .ok aligned ∧
          out.tensors = aligned.map (fun A => (repeatStick (extend rank A)).dims) ∧
          ∀ N ∈ Ns, ∃ i, checkStick split (insertSynths (sharedSynths Ns) N, i) = .ok () := by
  obtain ⟨Ns, hNs, h⟩ := bind_eq_ok_iff.mp h
  obtain ⟨u, hcheck, h⟩ := bind_eq_ok_iff.mp h
  obtain ⟨-, -, h⟩ := bind_eq_ok_iff.mp h
  obtain ⟨aligned, haligned, h⟩ := bind_eq_ok_iff.mp h
  obtain rfl := Except.ok.inj h
  refine ⟨Ns, hNs, ?_, aligned, _, haligned, rfl, fun N hN => ?_⟩
  · have hblocks := Lists.perm_flatMap_filter Segment.old
      (nodup_allVars inp.space.length (sharedSynths Ns))
      (l := segments inp.rangeOf (splits inp.repeats Ns) (sharedSynths Ns)
        (allVars inp.space.length (sharedSynths Ns))) fun s hs => (mem_segments hs).1
    refine List.Perm.trans (List.Perm.of_eq ?_) hblocks
    rw [map_flatMap, flatMap_map]
    exact flatMap_congr fun v _ => divideVar_segments _ _ _ _
  · obtain ⟨i, hi⟩ := mem_iff_getElem?.mp (mem_map_of_mem (f := insertSynths _) hN)
    exact ⟨i, checkAll_eq_ok_iff.mp hcheck (_, i) (mk_mem_zipIdx_iff_getElem?.mpr hi)⟩

/-- The terms of a normalized tensor are over the variables of the alignment. -/
theorem Normalizes.mem_allVars (h : Normalizes n ranges range tensor N) (hN : N ∈ Ns)
    (ht : t ∈ (insertSynths (sharedSynths Ns) N).outer ++
      [(insertSynths (sharedSynths Ns) N).stick]) {v : Var} (hv : t.var = some v) :
    v ∈ allVars n (sharedSynths Ns) := by
  obtain ⟨extra, heq, hextra⟩ := insertSynths_eq N (sharedSynths Ns)
  rw [heq] at ht
  dsimp only at ht
  rw [append_assoc] at ht
  rcases mem_append.mp ht with ht | ht
  · obtain ⟨k, hk, rfl⟩ := hextra t ht
    obtain rfl := Option.some.inj hv
    exact Alignment.mem_allVars.mpr (Or.inr ⟨k, hk, rfl⟩)
  · cases v with
    | loop i =>
      have hshape := (h.shaped fun d _ => Set.mem_univ d.1).1 t ht
      exact Alignment.mem_allVars.mpr (Or.inl ⟨i, hshape.loop i hv, rfl⟩)
    | synth k =>
      obtain ⟨u, terms, hsplit, houter, -, -⟩ := h.exists_runs
      have hmem : ∃ w ∈ u :: terms ++ [N.stick], t.var = w.var := by
        rcases mem_append.mp ht with ht | ht
        · rw [houter] at ht
          obtain ⟨r, hr, ht⟩ := mem_flatMap.mp ht
          obtain ⟨w, hw, hvar⟩ := var_of_mem_runs hr
          exact ⟨w, mem_append_left _ hw, mem_flush ht ▸ hvar⟩
        · exact ⟨t, mem_append_right _ ht, rfl⟩
      obtain ⟨w, hw, hvar⟩ := hmem
      have hk := ((splitDims_synth hsplit h.coords).2 w hw k (hvar ▸ hv)).2
      exact Alignment.mem_allVars.mpr (Or.inr ⟨k, hk.trans_le (le_sharedSynths hN), rfl⟩)

/-- A stick coordinate without a constant gives a stick without an offset. -/
theorem Normalizes.stick_offset (h : Normalizes n ranges range tensor N)
    (hoff : ∀ d ∈ tensor.getLast?, d.2.offset = 0) : N.stick.offset = 0 := by
  obtain ⟨t, terms, hsplit, -, -, -⟩ := h.exists_runs
  exact splitDims_last_offset hsplit h.coords hoff

/-- The ranges of the variables at a point. -/
theorem lt_rangeOf (hpt : pt ∈ inp.points) :
    (∀ k, pt (.synth k) = 0) ∧ ∀ m, ∀ v ∈ allVars inp.space.length m, pt v < inp.rangeOf v := by
  obtain ⟨hlt, hother⟩ := mem_points.mp hpt
  have hzero : ∀ k, pt (.synth k) = 0 := fun k => hother (.synth k) fun i _ h => by cases h
  refine ⟨hzero, fun m v hv => ?_⟩
  rcases mem_allVars.mp hv with ⟨i, hi, rfl⟩ | ⟨k, -, rfl⟩
  · exact hlt i hi
  · rw [hzero k]
    exact Nat.one_pos

theorem fresh_allVars (hk : Var.synth k ∈ allVars n m) : k < m := by
  rcases mem_allVars.mp hk with ⟨i, -, hi⟩ | ⟨j, hj, hkj⟩
  · cases hi
  · cases hkj
    exact hj

/-- A new tensor has the address of the old one, over the digits of the segments. -/
theorem newTensor_address {A : Aligned} (rank : ℕ) {i : ℕ}
    (hnorm : Normalizes inp.space.length inp.ranges inp.rangeOf tensor N) (hN : N ∈ Ns)
    (hfits : N.Fits (splits inp.repeats Ns) inp.rangeOf) (hpeels : N.Peels (splits inp.repeats Ns))
    (hoff : ∀ d ∈ tensor.getLast?, d.2.offset = 0) (hpt : pt ∈ inp.points)
    (hin : ∀ d ∈ tensor, d.2.eval pt < d.1)
    (hcutSynth : ∀ k, Cut 1 (splits inp.repeats Ns (.synth k)))
    (hcut : ∀ v ∈ allVars inp.space.length (sharedSynths Ns),
      Cut (inp.rangeOf v) (splits inp.repeats Ns v))
    (hcheck : checkStick (splits inp.repeats Ns) (insertSynths (sharedSynths Ns) N, i) = .ok ())
    (halign : alignTensor (splits inp.repeats Ns)
      (newVar (segments inp.rangeOf (splits inp.repeats Ns) (sharedSynths Ns)
        (allVars inp.space.length (sharedSynths Ns)))) (insertSynths (sharedSynths Ns) N) = .ok A) :
    address (NewTensor.at (digits (segments inp.rangeOf (splits inp.repeats Ns) (sharedSynths Ns)
      (allVars inp.space.length (sharedSynths Ns))) pt) (repeatStick (extend rank A)).dims) =
      address (tensor.at pt) := by
  have hsorted := splits_sorted inp.repeats Ns
  obtain ⟨hzero, hlt⟩ := lt_rangeOf hpt
  have hvars : ∀ t ∈ (insertSynths (sharedSynths Ns) N).outer ++
      [(insertSynths (sharedSynths Ns) N).stick], ∀ v, t.var = some v →
      v ∈ allVars inp.space.length (sharedSynths Ns) :=
    fun t ht v hv => hnorm.mem_allVars hN ht hv
  have hfol : Follows (splits inp.repeats Ns) _ inp.rangeOf pt _
      (insertSynths (sharedSynths Ns) N) :=
    ⟨fun t ht v hv => hcut v (hvars t ht v hv), fun t ht v hv =>
      reads_digits (nodup_allVars _ _) (fun k => fresh_allVars) hcut (fun v _ => hsorted v)
        (hvars t ht v hv) (hlt _ v (hvars t ht v hv)), fun t ht v hv => hlt _ v (hvars t ht v hv)⟩
  have hnozero : ∀ k, 0 ∉ splits inp.repeats Ns (.synth k) := by
    intro k hk
    obtain ⟨j, hj, hget⟩ := mem_iff_getElem.mp hk
    have := (hcutSynth k).boundary_pos (hsorted _) hj
    rw [boundary, getD_eq_getElem _ _ hj, hget] at this
    exact absurd this (lt_irrefl 0)
  have hfits' := hfits.insertSynths (sharedSynths Ns) (fun k => rfl) hnozero
    (hnorm.shaped fun d _ => Set.mem_univ d.1).2
  obtain ⟨extra, heq, -⟩ := insertSynths_eq N (sharedSynths Ns)
  have hstickEq : (insertSynths (sharedSynths Ns) N).stick = N.stick := by rw [heq]
  obtain ⟨haddr, hstick, hcounted⟩ := alignTensor_address halign hfits'
    (hpeels.insertSynths (sharedSynths Ns)) hfol hsorted hcheck fun v hv => by
      rw [hstickEq] at hv ⊢
      exact stick_mod_mem hN hv
  rw [repeatStick_extend_address rank hstick (hstickEq ▸ hnorm.stick_offset hoff) hcounted, haddr,
    insertSynths_address]
  refine hnorm.address_eq (mem_points.mp hpt).1 (fun t ht v hv => ?_) hin
  cases v with
  | loop i => exact (mem_points.mp hpt).1 i (ht.loop i hv)
  | synth k =>
    rw [hzero k]
    exact Nat.one_pos

/-- The new tensors have the addresses of the old ones, over the digits of the segments. -/
theorem aligned_address (hadm : inp.Admitted) (hreg : inp.Regular) (hsteady : inp.Steady)
    (hoff : ∀ tensor ∈ inp.tensors, ∀ d ∈ tensor.getLast?, d.2.offset = 0)
    (h : alignTensorsPure inp = .ok out) :
    out.tensors.length = inp.tensors.length ∧
    ∃ f, Set.BijOn f inp.points out.points ∧ ∀ pt ∈ inp.points,
      (∀ i < inp.space.length, pt (.loop i) =
        ((out.space.filter fun s => s.1.old = .loop i).map fun s => s.1.lower * f pt s.1.new).sum) ∧
      (∀ s ∈ out.space, ∀ k, s.1.old = .synth k → f pt s.1.new = 0) ∧
      ∀ p ∈ inp.tensors.zip out.tensors,
        address (NewTensor.at (f pt) p.2) = address (p.1.at pt) := by
  obtain ⟨Ns, hNs, hspace, aligned, rank, haligned, htensors, hcheck⟩ := alignTensorsPure_cases h
  have hnormal : ∀ {tensor N}, tensor ∈ inp.tensors →
      normalizeCoordinates inp.ranges tensor = .ok N →
      Normalizes inp.space.length inp.ranges inp.rangeOf tensor N := fun ht hN =>
    ⟨hreg.neat _ ht, hsteady.settled _ ht, hadm.coords _ ht, hN⟩
  have hjoined : mapE (joined inp.ranges) inp.tensors = .ok Ns :=
    mapE_congr hNs fun tensor ht N hN => (hnormal ht hN).joined_eq_ok
  have hcutSynth : ∀ k, Cut 1 (splits inp.repeats Ns (.synth k)) := by
    refine cut_synth (n := inp.space.length) fun N hN => ?_
    obtain ⟨tensor, ht, hnorm⟩ := mem_of_mapE hNs hN
    exact ((hnormal ht hnorm).shaped fun d _ => Set.mem_univ d.1).1
  set vars := allVars inp.space.length (sharedSynths Ns)
  set segs := segments inp.rangeOf (splits inp.repeats Ns) (sharedSynths Ns) vars with hsegs
  have hcut : ∀ v ∈ vars, Cut (inp.rangeOf v) (splits inp.repeats Ns v) := by
    intro v hv
    rcases mem_allVars.mp hv with ⟨i, hi, rfl⟩ | ⟨k, -, rfl⟩
    · exact hreg.cut Ns hjoined i hi
    · exact hcutSynth k
  have hnodup : vars.Nodup := nodup_allVars _ _
  have hnews : (segs.map Segment.new).Nodup := nodup_segments hnodup fun k => fresh_allVars
  have hbij := digits_bijOn hnodup (fun k => fresh_allVars) hcut fun v _ =>
    splits_sorted inp.repeats Ns v
  rw [← hsegs, points_allVars] at hbij
  have hpoints : out.points = Points (segs.map fun s => (s.new, s.range)) := by
    have hperm : (out.space.map fun s => (s.1.new, s.1.range)).Perm
        (segs.map fun s => (s.new, s.range)) := by
      have := hspace.map fun s : Segment => (s.new, s.range)
      rwa [map_map] at this
    ext pt
    simp only [Outputs.points, Points, Set.mem_ofPred_eq, hperm.mem_iff,
      (hperm.map Prod.fst).mem_iff]
  refine ⟨?_, digits segs, hpoints ▸ hbij, fun pt hpt => ?_⟩
  · rw [htensors, length_map, length_of_mapE haligned, length_map, length_of_mapE hNs]
  obtain ⟨hzero, hlt⟩ := lt_rangeOf hpt
  refine ⟨fun i hi => ?_, fun s hs k hk => ?_, fun p hp => ?_⟩
  · -- the digits of a loop variable make it up
    have hv : Var.loop i ∈ vars := mem_allVars.mpr (Or.inl ⟨i, hi, rfl⟩)
    obtain ⟨next', hfilter⟩ := filter_segments inp.rangeOf (splits inp.repeats Ns)
      (sharedSynths Ns) hnodup _ hv
    have hperm := ((hspace.filter fun s => s.old = .loop i).map
      fun s => s.lower * digits segs pt s.new).sum_eq
    rw [filter_map, map_map] at hperm
    refine Eq.trans ?_ hperm.symm
    rw [← sum_segmentsOf (.loop i) next' (hcut _ hv) (hlt _ _ hv), ← hfilter]
    refine congrArg List.sum (map_congr_left fun s hs => ?_)
    obtain ⟨hs, hold⟩ := mem_filter.mp hs
    rw [digits_new hnews hs, of_decide_eq_true hold]
  · have hs' : s.1 ∈ segs := hspace.subset (mem_map_of_mem hs)
    rw [digits_new hnews hs', hk, hzero k, Nat.zero_div, Nat.zero_mod]
  · obtain ⟨i, hi⟩ := mem_iff_getElem?.mp hp
    obtain ⟨htensor, hnew⟩ := getElem?_zip_eq_some.mp hi
    have hmem : p.1 ∈ inp.tensors := mem_of_getElem? htensor
    obtain ⟨N, hNi, hnorm⟩ := getElem?_of_mapE hNs htensor
    have hN : N ∈ Ns := mem_of_getElem? hNi
    obtain ⟨A, hAi, halign⟩ := getElem?_of_mapE haligned
      (show (Ns.map (insertSynths (sharedSynths Ns)))[i]? = some (insertSynths (sharedSynths Ns) N)
        by rw [getElem?_map, hNi]; rfl)
    rw [htensors, getElem?_map, hAi] at hnew
    have hp₂ : (repeatStick (extend rank A)).dims = p.2 := Option.some.inj hnew
    obtain ⟨j, hj⟩ := hcheck N hN
    rw [← hp₂]
    exact newTensor_address rank (hnormal hmem hnorm) hN (hreg.fits Ns hjoined N hN)
      (hsteady.peels Ns hjoined N hN) (hoff p.1 hmem) hpt (hadm.inBounds pt hpt p.1 hmem) hcutSynth
      hcut hj halign

/-- Without offsets nothing has to be asked of them. -/
theorem steady_of_offset (hadm : inp.Admitted)
    (hfree : ∀ tensor ∈ inp.tensors, ∀ d ∈ tensor, d.2.offset = 0) : inp.Steady := by
  have hterms : ∀ tensor ∈ inp.tensors, ∀ t terms k,
      splitDims inp.ranges true 0 tensor = .ok (t :: terms, k) →
      Settled t false terms.dropLast ∧ ∀ u ∈ runs t false terms.dropLast, u.offset = 0 := by
    intro tensor htensor t terms k hsplit
    have hzero := splitDims_offset hsplit (hadm.coords tensor htensor) (hfree tensor htensor)
    refine settled_of_offset (forall_mem_cons.mpr ⟨hzero t mem_cons_self, fun u hu => ?_⟩)
    exact hzero u (mem_cons_of_mem t (dropLast_subset terms hu))
  refine ⟨fun tensor ht t terms k hsplit => (hterms tensor ht t terms k hsplit).1,
    fun Ns hNs N hN t ht v _ => Or.inl ?_⟩
  obtain ⟨tensor, htensor, hjoin⟩ := mem_of_mapE hNs hN
  obtain ⟨⟨all, k⟩, hsplit, hjoin⟩ := bind_eq_ok_iff.mp hjoin
  cases all with
  | nil => cases hjoin
  | cons u terms =>
    obtain rfl := Except.ok.inj hjoin
    obtain ⟨r, hr, htr⟩ := mem_flatMap.mp ht
    rw [mem_flush htr]
    exact (hterms tensor htensor u terms k hsplit).2 r hr

/-- The terms `v // 4` and `v % 4` of the first loop variable, and the second loop variable. -/
def quot4 : CoordTerm :=
  ⟨1, 1, .floorDiv 4, 0⟩

/-- The remainder `Mod(d0, 4)`. -/
def rem4 : CoordTerm :=
  ⟨1, 1, .mod 4, 0⟩

/-- The element of a stick. -/
def lane : CoordTerm :=
  ⟨1, 1, .var, 1⟩

theorem eval_quot4 (pt : Var → ℕ) : quot4.eval pt = pt (.loop 0) / 4 := by
  simp [CoordTerm.eval, quot4, Body.eval]

theorem eval_rem4 (pt : Var → ℕ) : rem4.eval pt = pt (.loop 0) % 4 := by
  simp [CoordTerm.eval, rem4, Body.eval]

theorem eval_lane (pt : Var → ℕ) : lane.eval pt = pt (.loop 1) := by
  simp [CoordTerm.eval, lane, Body.eval]

/-- Tensors over eight values and one stick, each coordinate one of the three terms. -/
theorem admitted_of_terms (hspace : inp.space = [(8, 1), (64, 1)])
    (h : ∀ tensor ∈ inp.tensors, ∀ d ∈ tensor,
      d.2.terms = [quot4] ∧ d.2.offset + 1 < d.1 ∨ d.2.terms = [rem4] ∧ d.2.offset + 3 < d.1 ∨
        d.2.terms = [lane] ∧ d.2.offset + 63 < d.1) : inp.Admitted := by
  refine ⟨fun tensor ht d hd => ?_, fun pt hpt tensor ht d hd => ?_⟩
  · have hone : ∃ t, d.2.terms = [t] ∧ t.var < 2 ∧ 0 < t.num ∧ 0 < t.den ∧ 0 < t.body.divisor := by
      rcases h tensor ht d hd with ⟨hd, -⟩ | ⟨hd, -⟩ | ⟨hd, -⟩
      · exact ⟨quot4, hd, by decide⟩
      · exact ⟨rem4, hd, by decide⟩
      · exact ⟨lane, hd, by decide⟩
    obtain ⟨t, hterms, hvar, hpos⟩ := hone
    refine ⟨?_, ?_, ?_, ?_⟩
    · rw [hterms, hspace]
      exact forall_mem_singleton.mpr hvar
    · rw [hterms]
      exact forall_mem_singleton.mpr hpos
    · rw [hterms]
      exact forall_mem_singleton.mpr (forall_mem_singleton.mpr (Or.inl dvd_rfl))
    · rw [hterms]
      exact nodup_singleton _
  · obtain ⟨hlt, -⟩ := mem_points.mp hpt
    have hv : pt (.loop 0) < 8 := by simpa [Inputs.ranges, hspace] using hlt 0 (by simp [hspace])
    have hw : pt (.loop 1) < 64 := by simpa [Inputs.ranges, hspace] using hlt 1 (by simp [hspace])
    rw [Coordinate.eval]
    rcases h tensor ht d hd with ⟨hd, hlt⟩ | ⟨hd, hlt⟩ | ⟨hd, hlt⟩
    · rw [hd, map_singleton, sum_singleton, eval_quot4]
      omega
    · rw [hd, map_singleton, sum_singleton, eval_rem4]
      omega
    · rw [hd, map_singleton, sum_singleton, eval_lane]
      omega

/-- A tensor of `8 × 64` elements whose inner dimension of size four has been padded to five. -/
def padded : Inputs :=
  ⟨[(8, 1), (64, 1)], [[(2, ⟨0, [quot4]⟩), (5, ⟨0, [rem4]⟩), (64, ⟨0, [lane]⟩)]], []⟩

/-- Coordinates of one term without a stride fill their dimensions. -/
theorem packed_of_singletons : ∀ {outermost : Bool} {tensor : Tensor},
    (∀ d ∈ tensor, d.2.terms.length = 1 ∧ ∀ t ∈ d.2.terms, t.num = 1) → Packed outermost tensor
  | _, [], _ => trivial
  | outermost, d :: dims, h => by
    obtain ⟨⟨hlen, hone⟩, hrest⟩ := forall_mem_cons.mp h
    obtain ⟨t, ht⟩ := length_eq_one_iff.mp hlen
    have hmem : t ∈ d.2.terms := by simp [ht]
    exact ⟨Or.inr (Or.inl hlen.le), fun _ => Or.inr ⟨t, hmem, hone t hmem⟩,
      packed_of_singletons hrest⟩

theorem neat_of_splitDims {terms : List Term}
    (h : splitDims ranges true 0 tensor = .ok (t :: terms, k)) (hpacked : Packed true tensor)
    (hne : terms ≠ []) (htight : Tight range t false terms.dropLast) :
    tensor.Neat ranges range := by
  refine ⟨hpacked, fun u us j hu => ?_, fun u us j hu => ?_⟩
  all_goals
    obtain ⟨hlist, -⟩ := Prod.mk.inj (Except.ok.inj (h.symm.trans hu))
    obtain ⟨rfl, rfl⟩ := List.cons.inj hlist
    assumption

theorem regular_of_joined (h : mapE (joined inp.ranges) inp.tensors = .ok Ns)
    (hneat : ∀ tensor ∈ inp.tensors, tensor.Neat inp.ranges inp.rangeOf)
    (hcut : ∀ i < inp.space.length, Cut (inp.ranges i) (splits inp.repeats Ns (.loop i)))
    (hfits : ∀ N ∈ Ns, N.Fits (splits inp.repeats Ns) inp.rangeOf) : inp.Regular := by
  refine ⟨hneat, fun Ms hMs => ?_, fun Ms hMs => ?_⟩
  all_goals
    obtain rfl := Except.ok.inj (h.symm.trans hMs)
    assumption

/-- Terms of the first loop variable over a stick of the second. -/
theorem fits_of_lane {split : Var → List ℕ}
    (houter : ∀ t ∈ N.outer, t.var = some (.loop 0) ∧ t.den < t.mod ∧
      t.isOuterStick split N.stick (.loop 0) = false ∧
      ∀ b ∈ split (.loop 0), b < t.mod → b ∣ t.den * t.dimSize)
    (hstick : N.stick = ⟨1, 1, some (.loop 1), 64, 64, 0⟩) (hrange : range (.loop 1) = 64)
    (hsplit : ∀ b ∈ split (.loop 1), 1 < b → b < 64 → 64 ∣ b) : N.Fits split range := by
  refine ⟨fun t ht v hv => ?_, fun pre t post hl => Or.inl fun v hv => ?_, ?_, fun v hv => ?_⟩
  · obtain ⟨hvar, hlt, hout, -⟩ := houter t ht
    obtain rfl := Option.some.inj (hvar.symm.trans hv)
    rw [Term.Spans, hout]
    exact Or.inl hlt
  · obtain ⟨hvar, -, -, hroom⟩ := houter t (by simp [hl])
    obtain rfl := Option.some.inj (hvar.symm.trans hv)
    exact hroom
  · rw [hstick]
    decide
  · rw [hstick] at hv
    obtain rfl := Option.some.inj hv
    refine ⟨by rw [hstick], Or.inl (by rw [hstick]; decide), Or.inl (by rw [hstick]), ?_,
      Or.inl (by rw [hstick, hrange])⟩
    rw [hstick, hrange]
    exact hsplit

/-- Two tensors with the same values, the dimensions of one in the other order. -/
def transposed : Inputs :=
  ⟨[(8, 1), (64, 1)], [[(2, ⟨0, [quot4]⟩), (4, ⟨0, [rem4]⟩), (64, ⟨0, [lane]⟩)],
    [(4, ⟨0, [rem4]⟩), (2, ⟨0, [quot4]⟩), (64, ⟨0, [lane]⟩)]], []⟩

/-- The normalized tensors : one dimension of eight, and two that cut it at four. -/
def transposedNormal : List Normal :=
  [⟨[⟨1, 1, some (.loop 0), 8, 8, 0⟩], ⟨1, 1, some (.loop 1), 64, 64, 0⟩, 0⟩,
    ⟨[⟨1, 1, some (.loop 0), 4, 4, 0⟩, ⟨1, 4, some (.loop 0), 8, 2, 0⟩],
      ⟨1, 1, some (.loop 1), 64, 64, 0⟩, 0⟩]

theorem transposed_regular : transposed.Regular := by
  refine regular_of_joined (show mapE (joined transposed.ranges) transposed.tensors =
    .ok transposedNormal from rfl) ?_ ?_ ?_
  · refine forall_mem_cons.mpr ⟨?_, forall_mem_singleton.mpr ?_⟩
    · exact neat_of_splitDims rfl (packed_of_singletons (by decide)) (cons_ne_nil _ _)
        ⟨⟨Or.inl rfl, Or.inl (by decide)⟩, trivial⟩
    · exact neat_of_splitDims rfl (packed_of_singletons (by decide)) (cons_ne_nil _ _) trivial
  · intro i hi
    have hi : i < 2 := hi
    interval_cases i
    · exact Or.inr (Or.inr ⟨rfl, rfl, by decide⟩)
    · exact Or.inr (Or.inl rfl)
  · exact fun N hN => fits_of_lane (by revert N; decide) (by revert N; decide) rfl (by decide)

/-- A tensor without its constants. -/
def Tensor.strip (tensor : Tensor) : Tensor :=
  tensor.map fun d => (d.1, { d.2 with offset := 0 })

/-- The constants of a tensor, in its dimensions. -/
def Tensor.offsets (tensor : Tensor) : List (ℕ × ℕ) :=
  tensor.map fun d => (d.1, d.2.offset)

/-- Constants add up in the address, each times the volume inside. -/
theorem Tensor.address_strip (pt : Var → ℕ) : ∀ tensor : Tensor,
    address (tensor.at pt) = address (tensor.strip.at pt) + address tensor.offsets ∧
      volume (tensor.at pt) = volume tensor.offsets ∧
      volume (tensor.strip.at pt) = volume tensor.offsets
  | [] => ⟨rfl, rfl, rfl⟩
  | d :: tensor => by
    obtain ⟨haddr, hvol, hstrip⟩ := Tensor.address_strip pt tensor
    simp only [Tensor.at, Tensor.strip, Tensor.offsets, map_cons, address_cons,
      volume_cons, Coordinate.eval] at haddr hvol hstrip ⊢
    rw [haddr, hvol, hstrip]
    refine ⟨?_, rfl, rfl⟩
    ring

/-- A tensor of `8 × 64` elements that are the last two of three rows of `4 × 64`. -/
def shifted : Inputs :=
  ⟨[(8, 1), (64, 1)], [[(3, ⟨1, [quot4]⟩), (4, ⟨0, [rem4]⟩), (64, ⟨0, [lane]⟩)]], []⟩

/-- A tensor whose inner dimension of four starts at its second element. -/
def sliced : Inputs :=
  ⟨[(8, 1), (64, 1)], [[(5, ⟨1, [rem4]⟩), (2, ⟨0, [quot4]⟩), (64, ⟨0, [lane]⟩)]], []⟩

/-- The terms of `sliced`. -/
def slicedNormal : List Normal :=
  [⟨[⟨1, 1, some (.loop 0), 4, 5, 1⟩, ⟨1, 4, some (.loop 0), 8, 2, 0⟩],
    ⟨1, 1, some (.loop 1), 64, 64, 0⟩, 0⟩]

theorem sliced_joined : mapE (joined sliced.ranges) sliced.tensors = .ok slicedNormal := rfl

theorem sliced_regular : sliced.Regular := by
  refine regular_of_joined sliced_joined (forall_mem_singleton.mpr ?_) ?_ fun N hN => ?_
  · exact neat_of_splitDims rfl (packed_of_singletons (by decide)) (cons_ne_nil _ _) trivial
  · intro i hi
    have hi : i < 2 := hi
    interval_cases i
    · exact Or.inr (Or.inr ⟨rfl, rfl, by decide⟩)
    · exact Or.inr (Or.inl rfl)
  · exact fits_of_lane (by revert N; decide) (by revert N; decide) rfl (by decide)

theorem sliced_steady : sliced.Steady := by
  refine ⟨forall_mem_singleton.mpr fun t terms k h => ?_, fun Ns hNs N hN t ht v hv => ?_⟩
  · obtain ⟨hlist, -⟩ := Prod.mk.inj (Except.ok.inj h)
    obtain ⟨rfl, rfl⟩ := List.cons.inj hlist
    trivial
  · obtain rfl := Except.ok.inj (sliced_joined.symm.trans hNs)
    have hpeel : ∀ N ∈ slicedNormal, ∀ t ∈ N.outer, t.var = some (.loop 0) ∧
        (t.offset = 0 ∨ t.isOuterStick (splits sliced.repeats slicedNormal) N.stick (.loop 0) =
          false ∧ t.den = 1) := by decide
    obtain ⟨hvar, hzero⟩ := hpeel N hN t ht
    obtain rfl := Option.some.inj (hvar.symm.trans hv)
    refine hzero.imp_right fun hout => ?_
    rw [hout.1]
    exact hout.2

end Align

end Alignment

end TorchSpyre
