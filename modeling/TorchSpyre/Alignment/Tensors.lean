import Mathlib
import TorchSpyre.Alignment.Spans

/-!
# One aligned tensor

The new point of an old one is given by the digits of the segments (`reads_digits`). Over it every
term of a normalized tensor has the value of its new dimensions (`termDims_eq_ok`), the coordinate
in the stick stays (`stickCoord_eval`), and the dimensions that are added have size one and
coordinate zero. So the new dimensions have the address of the terms (`alignTensor_address`), if
the terms have room for the boundaries inside them (`Normal.Fits`) and offsets are peeled exactly
(`Normal.Peels`).
-/

open List

namespace TorchSpyre

open Checked Radix

namespace Alignment

/-! ## Synthetic variables of a tensor -/

section Synthetic

variable {n : ℕ} {ranges : ℕ → ℕ}

/-- The synthetic variables of a tensor are numbered in order. -/
theorem splitDims_synth {outermost : Bool} {k k' : ℕ} {tensor : Tensor} {terms : List Term}
    (h : splitDims ranges outermost k tensor = .ok (terms, k'))
    (hadm : ∀ d ∈ tensor, d.2.Admitted n) :
    k ≤ k' ∧ ∀ t ∈ terms, ∀ j, t.var = some (.synth j) → k ≤ j ∧ j < k' := by
  obtain ⟨hle, hterms⟩ := splitDims_origin h hadm
  refine ⟨hle, fun t ht i hi => ?_⟩
  obtain ⟨d, -, stick, j, j', -, hj, hj', ho⟩ := hterms t ht
  cases ho with
  | synthetic size offset hstick hk =>
    cases hi
    exact ⟨hj, by omega⟩
  | constant => cases hi
  | loop _ x hx hvar =>
    rw [hvar] at hi
    cases Option.some.inj hi

/-- A run has the variable of one of its terms. -/
theorem var_of_mem_runs :
    ∀ {terms : List Term} {cur t : Term} {skipped : Bool}, t ∈ runs cur skipped terms →
      ∃ u ∈ cur :: terms, t.var = u.var
  | [], cur, t, _, h => ⟨cur, mem_cons_self, by rw [mem_singleton.mp h]⟩
  | u :: terms, cur, t, _, h => by
    unfold runs at h
    split_ifs at h with hplace hfuse
    · obtain ⟨w, hw, hvar⟩ := var_of_mem_runs h
      rcases mem_cons.mp hw with rfl | hw
      · exact ⟨w, mem_cons_self, hvar⟩
      · exact ⟨w, mem_cons_of_mem cur (mem_cons_of_mem u hw), hvar⟩
    · obtain ⟨w, hw, hvar⟩ := var_of_mem_runs h
      rcases mem_cons.mp hw with rfl | hw
      · exact ⟨cur, mem_cons_self, hvar⟩
      · exact ⟨w, mem_cons_of_mem cur (mem_cons_of_mem u hw), hvar⟩
    · rcases mem_cons.mp h with rfl | h
      · exact ⟨t, mem_cons_self, rfl⟩
      · obtain ⟨w, hw, hvar⟩ := var_of_mem_runs h
        exact ⟨w, mem_cons_of_mem cur hw, hvar⟩

end Synthetic

/-! ## Tensors without offsets -/

section Offsets

variable {ranges : ℕ → ℕ}

theorem splitDims_offset {n : ℕ} {outermost : Bool} {k k' : ℕ} {tensor : Tensor}
    {terms : List Term} (h : splitDims ranges outermost k tensor = .ok (terms, k'))
    (hadm : ∀ d ∈ tensor, d.2.Admitted n) (hzero : ∀ d ∈ tensor, d.2.offset = 0) :
    ∀ t ∈ terms, t.offset = 0 := by
  intro t ht
  obtain ⟨d, hd, stick, j, j', -, -, -, ho⟩ := (splitDims_origin h hadm).2 t ht
  exact ho.offset_eq_zero (hzero d hd)

/-- The innermost term has no offset if the stick coordinate has none. -/
theorem splitDims_last_offset {n : ℕ} {outermost : Bool} {k k' : ℕ} {tensor : Tensor}
    {init : List Term} {last : Term}
    (h : splitDims ranges outermost k tensor = .ok (init ++ [last], k'))
    (hadm : ∀ d ∈ tensor, d.2.Admitted n) (hzero : ∀ d ∈ tensor.getLast?, d.2.offset = 0) :
    last.offset = 0 := by
  cases tensor with
  | nil =>
    obtain ⟨hnil, -⟩ := Prod.mk.inj (Except.ok.inj h)
    simp at hnil
  | cons d dims =>
    obtain ⟨init', last', hterms, e, he, j, j', ho⟩ := splitDims_last h hadm
    obtain rfl := singleton_inj.mp (append_inj' hterms rfl).2
    exact ho.offset_eq_zero (hzero e he)

/-- Terms without offsets. -/
theorem settled_of_offset :
    ∀ {terms : List Term} {cur : Term} {skipped : Bool}, (∀ t ∈ cur :: terms, t.offset = 0) →
      Settled cur skipped terms ∧ ∀ t ∈ runs cur skipped terms, t.offset = 0
  | [], cur, _, h => ⟨trivial, by simpa [runs] using h⟩
  | t :: terms, cur, _, h => by
    obtain ⟨hcur, hrest⟩ := forall_mem_cons.mp h
    obtain ⟨ht, hterms⟩ := forall_mem_cons.mp hrest
    unfold Settled runs
    split_ifs with hplace hfuse
    · exact settled_of_offset (forall_mem_cons.mpr ⟨hcur, hterms⟩)
    · have hoff : (cur.fuse t).offset = 0 := by simp [Term.fuse, hcur, ht]
      obtain ⟨hset, hruns⟩ := settled_of_offset (forall_mem_cons.mpr ⟨hoff, hterms⟩)
      exact ⟨⟨Or.inl hcur, hset⟩, hruns⟩
    · obtain ⟨hset, hruns⟩ := settled_of_offset hrest
      exact ⟨hset, forall_mem_cons.mpr ⟨hcur, hruns⟩⟩

end Offsets

/-! ## The boundaries -/

section Boundaries

variable {n : ℕ} {repeats : List ℕ} {Ns : List Normal}

theorem splits_sorted (repeats : List ℕ) (Ns : List Normal) (v : Var) :
    (splits repeats Ns v).Pairwise (· < ·) := by
  have hle : (splits repeats Ns v).Pairwise (· ≤ ·) := List.pairwise_insertionSort _ _
  have hnd : (splits repeats Ns v).Nodup :=
    (perm_insertionSort _ _).nodup_iff.mpr (nodup_dedup _)
  exact (hle.and hnd).imp fun h => lt_of_le_of_ne h.1 h.2

theorem mem_splits {v : Var} {b : ℕ} :
    b ∈ splits repeats Ns v ↔ ∃ N ∈ Ns, (v, b) ∈ bounds repeats N := by
  simp [splits, mem_dedup]

/-- A synthetic variable is not cut. -/
theorem cut_synth (hshape : ∀ N ∈ Ns, ∀ t ∈ N.outer ++ [N.stick], t.Shaped n Set.univ) (k : ℕ) :
    Cut 1 (splits repeats Ns (.synth k)) := by
  have hone : ∀ b ∈ splits repeats Ns (.synth k), b = 1 := by
    intro b hb
    obtain ⟨N, hN, hb⟩ := mem_splits.mp hb
    obtain ⟨t, ht, hb⟩ := mem_flatMap.mp hb
    cases hvar : t.var with
    | none => simp [hvar] at hb
    | some v =>
      have hmem : (Var.synth k, b) = (v, t.den) ∨ (Var.synth k, b) = (v, t.mod) := by
        simp only [hvar] at hb
        rcases mem_append.mp hb with hb | hb
        · split_ifs at hb
          · exact Or.inl (mem_singleton.mp hb)
          · exact absurd hb not_mem_nil
        · split_ifs at hb
          · exact Or.inr (mem_singleton.mp hb)
          · exact absurd hb not_mem_nil
      rcases hmem with heq | heq
      · obtain ⟨rfl, rfl⟩ := Prod.mk.inj heq
        exact ((hshape N hN t ht).synth k hvar).1
      · obtain ⟨rfl, rfl⟩ := Prod.mk.inj heq
        exact ((hshape N hN t ht).synth k hvar).2
  have hsorted := splits_sorted repeats Ns (.synth k)
  cases hl : splits repeats Ns (.synth k) with
  | nil => exact Or.inl rfl
  | cons b rest =>
    rw [hl] at hone hsorted
    obtain rfl := hone b mem_cons_self
    cases rest with
    | nil => exact Or.inr (Or.inl rfl)
    | cons c rest =>
      have hlt := (pairwise_cons.mp hsorted).1 c mem_cons_self
      have := hone c (mem_cons_of_mem 1 mem_cons_self)
      omega

/-- The modulus of the stick is a boundary, unless it is the size of the stick. -/
theorem stick_mod_mem {N : Normal} (hN : N ∈ Ns) {v : Var} (hvar : N.stick.var = some v) :
    N.stick.mod = N.stick.dimSize ∨ N.stick.mod ∈ splits repeats Ns v := by
  by_cases hmod : N.stick.mod = N.stick.dimSize
  · exact Or.inl hmod
  · refine Or.inr (mem_splits.mpr ⟨N, hN, mem_flatMap.mpr
      ⟨N.stick, mem_append_right _ (mem_singleton_self _), ?_⟩⟩)
    simp [hvar, hmod]

end Boundaries

/-! ## The new point -/

section NewPoint

variable {range : Var → ℕ} {split : Var → List ℕ} {vars : List Var} {next : ℕ} {pt : Var → ℕ}

/-- The digits of the segments read the old point. -/
theorem reads_digits (hnodup : vars.Nodup) (hfresh : ∀ k, Var.synth k ∈ vars → k < next)
    (hcut : ∀ v ∈ vars, Cut (range v) (split v))
    (hsorted : ∀ v ∈ vars, (split v).Pairwise (· < ·)) {v : Var} (hv : v ∈ vars)
    (hpt : pt v < range v) :
    Reads split (newVar (segments range split next vars)) pt
      (digits (segments range split next vars) pt) v := by
  set segs := segments range split next vars with hsegs
  have hnews : (segs.map Segment.new).Nodup := nodup_segments hnodup hfresh
  obtain ⟨next', hfilter⟩ := filter_segments range split next hnodup v hv
  have hmem : ∀ s ∈ segmentsOf v (range v) next' (split v), s ∈ segs := fun s hs =>
    (mem_filter.mp (hfilter ▸ hs)).1
  have hnth : ∀ i, i + 1 < (split v).length → ∃ w, newVar segs v i = w ∧ (i = 0 → w = v) ∧
      digits segs pt w = pt v % boundary (split v) (i + 1) / boundary (split v) i := by
    intro i hi
    obtain ⟨w, hw, hfirst⟩ := getElem?_segmentsOf v (range v) next' hi
    refine ⟨w, ?_, hfirst, ?_⟩
    · rw [newVar, hsegs, hfilter, getD_eq_getElem?_getD, getElem?_map, hw]
      rfl
    · have := digits_new hnews (hmem _ (mem_of_getElem? hw)) pt
      dsimp only at this
      obtain ⟨m, hm⟩ := (hcut v hv).boundary_dvd hi
      have hpos := (hcut v hv).boundary_pos (hsorted v hv) (Nat.lt_of_succ_lt hi)
      rw [this]
      change pt v / boundary (split v) i % (boundary (split v) (i + 1) / boundary (split v) i) = _
      rw [hm, Nat.mul_div_cancel_left m hpos, Nat.mod_mul_right_div_self]
  refine ⟨fun hlen => ?_, fun i hi => ?_, fun hlen => ?_⟩
  · have hone : segmentsOf v (range v) next' (split v) = [⟨v, v, 1, range v⟩] := by
      cases hs : split v with
      | nil => rfl
      | cons b rest =>
        cases rest with
        | nil => rfl
        | cons c rest =>
          rw [hs] at hlen
          simp at hlen
    have := digits_new hnews (hmem ⟨v, v, 1, range v⟩ (by simp [hone])) pt
    simpa [Nat.mod_eq_of_lt hpt] using this
  · obtain ⟨w, hw, -, hdigit⟩ := hnth i hi
    rw [hw, hdigit]
  · obtain ⟨w, hw, hfirst, -⟩ := hnth 0 hlen
    rw [hw, hfirst rfl]

end NewPoint

/-! ## The stick -/

/-- The stick of a tensor keeps its coordinate : no boundary cuts it, and the variable of the
stick counts sticks in an outer dimension or does not leave the first one. -/
structure Normal.StickFits (split : Var → List ℕ) (range : Var → ℕ) (N : Normal) (v : Var) :
    Prop where
  den : N.stick.den = 1
  mod : 1 < N.stick.mod ∨ range v = 1
  size : N.stick.mod ≤ N.stick.dimSize ∨ range v ≤ N.stick.dimSize
  interior : ∀ b ∈ split v, 1 < b → b < range v → N.stick.mod ∣ b
  counted : range v ≤ N.stick.dimSize ∨ (∃ b ∈ split v, 1 < b ∧ b ≤ N.stick.dimSize) ∨
    ∃ t ∈ N.outer, t.var = some v ∧ t.isOuterStick split N.stick v = true

section Stick

variable {split : Var → List ℕ} {new : Var → ℕ → Var} {range : Var → ℕ} {pt q : Var → ℕ}
  {N : Normal} {v : Var}

/-- A variable that is cut is read by its first segment. -/
theorem ReadsIn.first_digit (h : ReadsIn split new range pt q v) (hlen : 1 < (split v).length) :
    q v = pt v % boundary (split v) 1 := by
  have hdigit := h.digit 0 hlen
  rwa [h.first hlen, h.cut.boundary_zero (ne_nil_of_length_pos (by omega)), Nat.div_one] at hdigit

/-- Boundaries above one are not below the first segment. -/
theorem boundary_one_le {l : List ℕ} (hsorted : l.Pairwise (· < ·)) (hzero : boundary l 0 = 1)
    {b : ℕ} (hb : b ∈ l) (hone : 1 < b) : 1 < l.length ∧ boundary l 1 ≤ b := by
  obtain ⟨i, hi, rfl⟩ := mem_iff_getElem.mp hb
  have hget : boundary l i = l[i] := getD_eq_getElem _ _ hi
  have hne : i ≠ 0 := by
    rintro rfl
    omega
  refine ⟨by omega, ?_⟩
  rcases Nat.lt_or_ge 1 i with hlt | hle
  · rw [← hget]
    exact (boundary_lt hsorted hlt hi).le
  · obtain rfl : i = 1 := by omega
    exact hget.le

theorem boundary_last_le {range : ℕ} {l : List ℕ} (hcut : Cut range l)
    (hsorted : l.Pairwise (· < ·)) (hlen : 1 < l.length) {i : ℕ} (hi : i < l.length) :
    boundary l i ≤ range := by
  rw [← hcut.boundary_last hlen]
  rcases Nat.lt_or_ge i (l.length - 1) with hlt | hge
  · exact (boundary_lt hsorted hlt (by omega)).le
  · obtain rfl : i = l.length - 1 := by omega
    exact le_rfl

/-- The first segment of the variable of the stick has the coordinate in the stick. -/
theorem stick_rem (h : N.StickFits split range v) (hreads : ReadsIn split new range pt q v)
    (hmod : N.stick.mod = N.stick.dimSize ∨ N.stick.mod ∈ split v) :
    q v % N.stick.dimSize = pt v % N.stick.mod := by
  have hcut := hreads.cut
  have hsorted := hreads.sorted
  have hpt := hreads.lt
  rcases Nat.lt_or_ge 1 (split v).length with hlen | hlen
  · have hzero : boundary (split v) 0 = 1 :=
      hcut.boundary_zero (ne_nil_of_length_pos (by omega))
    have hone : 1 < boundary (split v) 1 :=
      hzero.symm.trans_lt (boundary_lt hsorted Nat.one_pos hlen)
    rw [hreads.first_digit hlen]
    rcases (boundary_last_le hcut hsorted hlen hlen).lt_or_eq with hlt | hend
    · have hdvd := h.interior _ (boundary_mem hlen) hone hlt
      rcases hmod with hmod | hmod
      · rw [← hmod, Nat.mod_mod_of_dvd _ hdvd]
      · -- the modulus is itself the first boundary
        have hlarge : 1 < N.stick.mod := h.mod.resolve_right (by omega)
        have heq : boundary (split v) 1 = N.stick.mod :=
          le_antisymm (boundary_one_le hsorted hzero hmod hlarge).2
            (Nat.le_of_dvd (by omega) hdvd)
        rw [heq, Nat.mod_eq_of_lt]
        have := Nat.mod_lt (pt v) (y := N.stick.mod) (by omega)
        rcases h.size with hsize | hsize <;> omega
    · rw [hend, Nat.mod_eq_of_lt hpt]
      rcases hmod with hmod | hmod
      · rw [hmod]
      · have hlarge : 1 < N.stick.mod := h.mod.resolve_right (by omega)
        have hge := (boundary_one_le hsorted hzero hmod hlarge).2
        rw [Nat.mod_eq_of_lt (by rcases h.size with hsize | hsize <;> omega),
          Nat.mod_eq_of_lt (by omega)]
  · rw [hreads.whole hlen]
    rcases hmod with hmod | hmod
    · rw [hmod]
    · have hone : range v = 1 := by
        refine h.mod.resolve_left fun hlarge => ?_
        have hzero := hcut.boundary_zero (ne_nil_of_mem hmod)
        have := (boundary_one_le hsorted hzero hmod hlarge).1
        omega
      have : pt v = 0 := by omega
      rw [this, Nat.zero_mod, Nat.zero_mod]

/-- The coordinate in the stick stays. -/
theorem stickCoord_eval (hfits : ∀ v, N.stick.var = some v → N.StickFits split range v)
    (hreads : ∀ v, N.stick.var = some v → ReadsIn split new range pt q v)
    (hmod : ∀ v, N.stick.var = some v → N.stick.mod = N.stick.dimSize ∨ N.stick.mod ∈ split v) :
    (stickCoord N.stick).eval q = N.stick.value pt := by
  cases hvar : N.stick.var with
  | none => simp [stickCoord, hvar, NewCoord.eval, Term.value]
  | some v =>
    have h := hfits v hvar
    have hrem := stick_rem h (hreads v hvar) (hmod v hvar)
    rw [stickCoord, hvar]
    dsimp only
    split_ifs with hsize
    · rw [hsize, Nat.mod_one] at hrem
      simp [NewCoord.eval, Term.value, hvar, h.den, ← hrem]
    · simp [NewCoord.eval, Term.value, hvar, h.den, hrem]

/-- The variable of the stick counts sticks in an outer dimension or does not leave the first
stick. -/
theorem Normal.StickFits.lt_or_counted (h : N.StickFits split range v)
    (hreads : ReadsIn split new range pt q v) :
    q v < N.stick.dimSize ∨
      ∃ t ∈ N.outer, t.var = some v ∧ t.isOuterStick split N.stick v = true := by
  have hpt := hreads.lt
  have hle : q v ≤ pt v := by
    rcases Nat.lt_or_ge 1 (split v).length with hlen | hlen
    · rw [hreads.first_digit hlen]
      exact Nat.mod_le _ _
    · exact (hreads.whole hlen).le
  rcases h.counted with hrange | ⟨b, hb, hone, hsize⟩ | hcount
  · exact Or.inl (by omega)
  · have hzero := hreads.cut.boundary_zero (ne_nil_of_mem hb)
    obtain ⟨hlen, hfirst⟩ := boundary_one_le hreads.sorted hzero hb hone
    rw [hreads.first_digit hlen]
    have := Nat.mod_lt (pt v) (hreads.cut.boundary_pos hreads.sorted hlen)
    exact Or.inl (by omega)
  · exact Or.inr hcount

end Stick

/-! ## One tensor -/

/-- A term that is zero at every point. -/
def Term.Idle (range : Var → ℕ) (t : Term) : Prop :=
  t.offset = 0 ∧ ∀ v, t.var = some v → range v = 1

/-- The terms of a tensor span segments and have room for the boundaries inside them, unless all
terms outside are zero. -/
structure Normal.Fits (split : Var → List ℕ) (range : Var → ℕ) (N : Normal) : Prop where
  spans : ∀ t ∈ N.outer, ∀ v, t.var = some v → t.Spans split range N.stick v
  room : ∀ pre t post, N.outer = pre ++ t :: post →
    (∀ v, t.var = some v → t.Room split v) ∨ ∀ u ∈ pre, u.Idle range
  stickSize : 0 < N.stick.dimSize
  stick : ∀ v, N.stick.var = some v → N.StickFits split range v

/-- Every offset is peeled exactly. -/
def Normal.Peels (split : Var → List ℕ) (N : Normal) : Prop :=
  ∀ t ∈ N.outer, ∀ v, t.var = some v → t.Peels split N.stick v

theorem insertSynths_eq (N : Normal) : ∀ count : ℕ, ∃ extra,
    insertSynths count N = { N with outer := extra ++ N.outer } ∧
      ∀ t ∈ extra, ∃ k < count, t = Term.synthetic k 1 0
  | 0 => ⟨[], rfl, fun t ht => absurd ht not_mem_nil⟩
  | count + 1 => by
    obtain ⟨extra, heq, hextra⟩ := insertSynths_eq N count
    have hstep : insertSynths (count + 1) N = insertSynth (insertSynths count N) count := by
      simp [insertSynths, range_succ]
    rw [hstep, heq, insertSynth]
    split_ifs with hused
    · exact ⟨extra, rfl, fun t ht => (hextra t ht).imp fun k hk => ⟨by omega, hk.2⟩⟩
    · refine ⟨Term.synthetic count 1 0 :: extra, rfl, forall_mem_cons.mpr
        ⟨⟨count, Nat.lt_succ_self count, rfl⟩, fun t ht => ?_⟩⟩
      exact (hextra t ht).imp fun k hk => ⟨by omega, hk.2⟩

section Inserted

variable {split : Var → List ℕ} {range : Var → ℕ} {N : Normal} (count : ℕ)

/-- The dimensions that are inserted have no extent. -/
theorem insertSynths_address (pt : Var → ℕ) :
    address (((insertSynths count N).outer ++ [(insertSynths count N).stick]).map (Term.dim pt)) =
      address ((N.outer ++ [N.stick]).map (Term.dim pt)) := by
  obtain ⟨extra, heq, hextra⟩ := insertSynths_eq N count
  have hzero : address (extra.map (Term.dim pt)) = 0 := by
    refine address_eq_zero (forall_mem_map.mpr fun t ht => ?_)
    obtain ⟨k, -, rfl⟩ := hextra t ht
    exact Term.value_synthetic ..
  rw [heq]
  dsimp only
  rw [append_assoc, map_append, address_append, hzero, Nat.zero_mul, Nat.zero_add]

theorem Normal.Fits.insertSynths (hsynth : ∀ k, range (.synth k) = 1)
    (hzero : ∀ k, 0 ∉ split (.synth k)) (hstick : ∀ k, N.stick.var ≠ some (.synth k))
    (h : N.Fits split range) :
    (insertSynths count N).Fits split range := by
  obtain ⟨extra, heq, hextra⟩ := insertSynths_eq N count
  have hout : ∀ k, (Term.synthetic k 1 0).isOuterStick split N.stick (.synth k) = false := by
    intro k
    simp [Term.isOuterStick, hstick k]
  rw [heq]
  refine ⟨fun t ht v hv => ?_, fun pre t post hsplit => ?_, h.stickSize, fun v hv => ?_⟩
  · rcases mem_append.mp ht with ht | ht
    · obtain ⟨k, -, rfl⟩ := hextra t ht
      obtain rfl := Option.some.inj hv
      rw [Term.Spans, hout]
      exact Or.inr ⟨rfl, hsynth k⟩
    · exact h.spans t ht v hv
  · dsimp only at hsplit
    rcases append_eq_append_iff.mp hsplit with ⟨mid, rfl, houter⟩ | ⟨mid, rfl, hcons⟩
    · refine (h.room mid t post houter).imp_right fun hidle u hu => ?_
      rcases mem_append.mp hu with hu | hu
      · obtain ⟨k, -, rfl⟩ := hextra u hu
        exact ⟨rfl, fun v hv => Option.some.inj hv ▸ hsynth k⟩
      · exact hidle u hu
    · cases mid with
      | nil =>
        refine (h.room [] t post (by simpa using hcons.symm)).imp_right fun _ u hu => ?_
        obtain ⟨k, -, rfl⟩ := hextra u (by simpa using hu)
        exact ⟨rfl, fun v hv => Option.some.inj hv ▸ hsynth k⟩
      | cons w mid =>
        obtain ⟨rfl, -⟩ := List.cons.inj hcons
        obtain ⟨k, -, rfl⟩ := hextra t (by simp)
        refine Or.inl fun v hv b hb hlt => ?_
        obtain rfl := Option.some.inj hv
        obtain rfl : b = 0 := Nat.lt_one_iff.mp hlt
        exact absurd hb (hzero k)
  · have hfit := h.stick v hv
    refine ⟨hfit.den, hfit.mod, hfit.size, hfit.interior, hfit.counted.imp_right ?_⟩
    refine Or.imp_right ?_
    rintro ⟨t, ht, hcount⟩
    exact ⟨t, mem_append_right extra ht, hcount⟩

theorem Normal.Peels.insertSynths (h : N.Peels split) : (insertSynths count N).Peels split := by
  obtain ⟨extra, heq, hextra⟩ := insertSynths_eq N count
  rw [heq]
  intro t ht v hv
  rcases mem_append.mp ht with ht | ht
  · obtain ⟨k, -, rfl⟩ := hextra t ht
    exact Or.inl rfl
  · exact h t ht v hv

end Inserted

section Tensor

variable {split : Var → List ℕ} {new : Var → ℕ → Var} {range : Var → ℕ} {pt q : Var → ℕ}
  {N : Normal} {A : Aligned}

/-- What the variables of a tensor have to satisfy at a point. -/
structure Follows (split : Var → List ℕ) (new : Var → ℕ → Var) (range : Var → ℕ) (pt q : Var → ℕ)
    (N : Normal) : Prop where
  cut : ∀ t ∈ N.outer ++ [N.stick], ∀ v, t.var = some v → Cut (range v) (split v)
  reads : ∀ t ∈ N.outer ++ [N.stick], ∀ v, t.var = some v → Reads split new pt q v
  lt : ∀ t ∈ N.outer ++ [N.stick], ∀ v, t.var = some v → pt v < range v

theorem Term.Idle.value_eq_zero {t : Term} (h : t.Idle range)
    (hpt : ∀ v, t.var = some v → pt v < range v) : t.value pt = 0 := by
  obtain ⟨hoff, hone⟩ := h
  cases hvar : t.var with
  | none => simp [Term.value, hvar, hoff]
  | some v =>
    have hlt := hpt v hvar
    rw [hone v hvar, Nat.lt_one_iff] at hlt
    simp [Term.value, hvar, hlt, hoff]

/-- The new dimensions of a tensor have the address of its terms. -/
theorem alignTensor_address (h : alignTensor split new N = .ok A) (hfits : N.Fits split range)
    (hpeels : N.Peels split) (hfol : Follows split new range pt q N)
    (hsorted : ∀ v, (split v).Pairwise (· < ·)) {i : ℕ} (hcheck : checkStick split (N, i) = .ok ())
    (hmod : ∀ v, N.stick.var = some v → N.stick.mod = N.stick.dimSize ∨ N.stick.mod ∈ split v) :
    address (NewTensor.at q A.dims) = address ((N.outer ++ [N.stick]).map (Term.dim pt)) ∧
      A.stick = (N.stick.dimSize, stickCoord N.stick) ∧
      ∀ v, N.stick.var = some v → q v < N.stick.dimSize ∨ ∃ d ∈ A.outer, d.2.symbol = some v := by
  obtain ⟨dims, hdims, h⟩ := bind_eq_ok_iff.mp h
  obtain rfl := Except.ok.inj h
  have hinner : ∀ t ∈ N.outer, t ∈ N.outer ++ [N.stick] := fun t ht => mem_append_left _ ht
  have hreads : ∀ t ∈ N.outer ++ [N.stick], ∀ v, t.var = some v → ReadsIn split new range pt q v :=
    fun t ht v hv => ⟨hfol.reads t ht v hv, hfol.cut t ht v hv, hsorted v, hfol.lt t ht v hv⟩
  have hlast : N.stick ∈ N.outer ++ [N.stick] := mem_append_right _ (mem_singleton_self _)
  -- a dimension that counts sticks is cut between sticks
  have hsticks : ∀ t ∈ N.outer, ∀ v, t.var = some v → t.isOuterStick split N.stick v = true →
      0 < t.den ∧ ∀ b ∈ (split v).tail.dropLast, t.den ∣ b := by
    intro t ht v hv hout
    simp only [Term.isOuterStick, Bool.and_eq_true, decide_eq_true_eq] at hout
    obtain ⟨⟨hvar, hden⟩, -⟩ := hout
    refine ⟨hden ▸ hfits.stickSize, ?_⟩
    rw [checkStick, hvar] at hcheck
    dsimp only at hcheck
    rw [if_pos (any_eq_true.mpr ⟨t, ht, by simp [hv, hden]⟩)] at hcheck
    intro b hb
    have := checkAll_eq_ok_iff.mp hcheck b hb
    rw [guardE_eq_ok_iff] at this
    exact hden ▸ Nat.dvd_of_mod_eq_zero this
  have hterm : ∀ t ∈ N.outer, ∀ d, termDims split new N.stick t = .ok d →
      address (NewTensor.at q d) = t.value pt ∧
        ((∀ v, t.var = some v → t.Room split v) → volume (NewTensor.at q d) = t.dimSize) ∧
        ∀ v, t.var = some v → t.isOuterStick split N.stick v = true →
          ∃ e ∈ d, e.2.symbol = some v := fun t ht d hd =>
    termDims_eq_ok hd (hreads t (hinner t ht)) (hfits.spans t ht) (hpeels t ht) (hsticks t ht)
  obtain ⟨ps, hfst, rfl, hps⟩ := pairs_of_mapE hdims
  have hmem : ∀ p ∈ ps, p.1 ∈ N.outer := fun p hp => hfst ▸ mem_map_of_mem hp
  have houter : address (NewTensor.at q (ps.map Prod.snd).flatten) =
      address (N.outer.map (Term.dim pt)) := by
    have hnew : NewTensor.at q (ps.map Prod.snd).flatten =
        ps.flatMap fun p => NewTensor.at q p.2 := by
      rw [NewTensor.at, map_flatten, map_map, flatMap_def]
      rfl
    have hold : N.outer.map (Term.dim pt) = ps.flatMap fun p => [p.1.dim pt] := by
      rw [← hfst, map_map, ← map_eq_flatMap]
      rfl
    rw [hnew, hold]
    refine address_flatMap (fun p hp => ?_) fun pre p post hl => ?_
    · rw [(hterm p.1 (hmem p hp) p.2 (hps p hp)).1]
      simp
    · have hp : p ∈ ps := by simp [hl]
      have hsplit : N.outer = pre.map Prod.fst ++ p.1 :: post.map Prod.fst := by
        rw [← hfst, hl, map_append, map_cons]
      refine (hfits.room _ p.1 _ hsplit).imp (fun hroom => ?_) fun hidle u hu => ?_
      · rw [(hterm p.1 (hmem p hp) p.2 (hps p hp)).2.1 hroom]
        simp
      · have hu' : u.1 ∈ N.outer := hmem u (by simp [hl, hu])
        have hzero := (hidle u.1 (mem_map_of_mem hu)).value_eq_zero
          (hfol.lt u.1 (hinner u.1 hu'))
        simp [hzero]
  have hstick := stickCoord_eval hfits.stick (hreads _ hlast) hmod
  refine ⟨?_, rfl, fun v hv => ?_⟩
  · rw [Aligned.dims, NewTensor.at_append, map_append, address_append, address_append, houter]
    simp [hstick]
  · refine ((hfits.stick v hv).lt_or_counted (hreads _ hlast v hv)).imp_right ?_
    rintro ⟨t, ht, hvar, hout⟩
    obtain ⟨p, hp, rfl⟩ := mem_map.mp (hfst.symm ▸ ht)
    obtain ⟨d, hd, hsym⟩ := (hterm p.1 ht p.2 (hps p hp)).2.2 v hvar hout
    exact ⟨d, mem_flatten.mpr ⟨p.2, mem_map_of_mem hp, hd⟩, hsym⟩

/-! ## Ranks -/

/-- Outer dimensions of size one do not matter. -/
theorem extend_address (rank : ℕ) (A : Aligned) (q : Var → ℕ) :
    address (NewTensor.at q (extend rank A).dims) = address (NewTensor.at q A.dims) := by
  have hzero : ∀ n : ℕ, address (NewTensor.at q (List.replicate n (1, .const 0))) = 0 := fun n =>
    address_eq_zero (forall_mem_map.mpr fun d hd => eq_of_mem_replicate hd ▸ rfl)
  rw [Aligned.dims, Aligned.dims, extend, append_assoc, NewTensor.at_append, address_append,
    hzero, Nat.zero_mul, Nat.zero_add]

theorem placeStick_at {v : Var} {size : ℕ} (hq : q v < size) :
    ∀ {dims dims' : NewTensor}, placeStick v size dims = some dims' →
      NewTensor.at q dims' = NewTensor.at q dims
  | d :: dims, dims', h => by
    rw [placeStick] at h
    split_ifs at h with hunit
    · obtain rfl := Option.some.inj h
      obtain ⟨hsize, hcoord⟩ : d.1 = 1 ∧ d.2 = .const 0 := by simpa [isUnit] using hunit
      simp [NewCoord.eval, hsize, hcoord, Nat.div_eq_of_lt hq]
    · obtain ⟨rest, hrest, rfl⟩ := Option.map_eq_some_iff.mp h
      rw [NewTensor.at_cons, NewTensor.at_cons, placeStick_at hq hrest]

/-- The second occurrence of the stick variable does not matter while it stays in the first
stick. -/
theorem repeatStick_address {stick : Term} (hstick : A.stick = (stick.dimSize, stickCoord stick))
    (hoff : stick.offset = 0)
    (hcounted : ∀ v, stick.var = some v →
      q v < stick.dimSize ∨ ∃ d ∈ A.outer, d.2.symbol = some v) :
    address (NewTensor.at q (repeatStick A).dims) = address (NewTensor.at q A.dims) := by
  rw [repeatStick, hstick]
  dsimp only
  cases hvar : stick.var with
  | none => simp [stickCoord, hvar, NewCoord.symbol]
  | some v =>
    by_cases hsize : stick.dimSize = 1
    · simp [stickCoord, hvar, hsize, NewCoord.symbol]
    · have hcoord : stickCoord stick = .rem v stick.dimSize 0 := by
        simp [stickCoord, hvar, hsize, hoff]
      rw [hcoord, NewCoord.symbol]
      dsimp only
      split_ifs with hfound
      · rfl
      · have hq : q v < stick.dimSize := (hcounted v hvar).resolve_right fun hex => hfound <| by
          obtain ⟨d, hd, hsym⟩ := hex
          exact any_eq_true.mpr ⟨d, hd, by simp [hsym]⟩
        cases hplace : placeStick v stick.dimSize A.outer with
        | none => rfl
        | some outer =>
          rw [Aligned.dims, Aligned.dims, NewTensor.at_append, NewTensor.at_append,
            placeStick_at hq hplace, hstick, hcoord]

theorem repeatStick_extend_address (rank : ℕ) {stick : Term}
    (hstick : A.stick = (stick.dimSize, stickCoord stick)) (hoff : stick.offset = 0)
    (hcounted : ∀ v, stick.var = some v →
      q v < stick.dimSize ∨ ∃ d ∈ A.outer, d.2.symbol = some v) :
    address (NewTensor.at q (repeatStick (extend rank A)).dims) =
      address (NewTensor.at q A.dims) := by
  have hstick' : (extend rank A).stick = (stick.dimSize, stickCoord stick) := hstick
  rw [repeatStick_address hstick' hoff fun v hv => (hcounted v hv).imp_right ?_, extend_address]
  rintro ⟨d, hd, hsym⟩
  exact ⟨d, mem_append_right _ hd, hsym⟩

end Tensor

end Alignment

end TorchSpyre
