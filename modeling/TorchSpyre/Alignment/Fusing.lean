import Mathlib
import TorchSpyre.Alignment.Placing

/-!
# Fusing terms keeps the address

Two neighbouring terms of one variable continue one another if the outer one counts what the
inner one wraps at. The loop of `normalize_coordinates` fuses such neighbours, and compares their
sizes only where it has skipped a dimension between them. Fusing keeps the address if the inner
term has no padding, or the outer one stays zero, and the outer one has no offset
(`runs_address`). With that, a normalized tensor has the address of the tensor
(`Normalizes.address_eq`).
-/

open List

namespace TorchSpyre

open Checked Radix

namespace Alignment

/-! ## The shape of the terms -/

/-- Terms of the dimensions have no stride left. A constant is zero, in a dimension of the
tensor, and a synthetic variable has no other boundary than one. -/
structure Term.Shaped (n : ℕ) (sizes : Set ℕ) (t : Term) : Prop where
  num : t.var ≠ none → t.num = 1
  constant : t.var = none → t.num = 0 ∧ t.offset = 0 ∧ t.dimSize ∈ sizes
  loop : ∀ i, t.var = some (.loop i) → i < n
  synth : ∀ k, t.var = some (.synth k) → t.den = 1 ∧ t.mod = 1

section Shaped

variable {n : ℕ} {sizes : Set ℕ} {ranges : ℕ → ℕ}

theorem Term.shaped_synthetic (k size offset : ℕ) :
    (Term.synthetic k size offset).Shaped n sizes :=
  ⟨fun _ => rfl, fun h => absurd h (Option.some_ne_none _), fun _ h => (by cases h),
    fun _ _ => ⟨rfl, rfl⟩⟩

variable {outermost stick : Bool} {terms : List Term} {k k' size : ℕ} {d : ℕ × Coordinate}

theorem Term.shaped_constant (hsize : size ∈ sizes) :
    (Term.constant size).Shaped n sizes :=
  ⟨fun h => absurd rfl h, fun _ => ⟨rfl, rfl, hsize⟩, fun _ h => (by cases h),
    fun _ h => (by cases h)⟩

theorem Term.shaped_of_loop {t : Term} {i : ℕ} (hvar : t.var = some (.loop i)) (hi : i < n)
    (hnum : t.num = 1) : t.Shaped n sizes := by
  refine ⟨fun _ => hnum, fun hnone => by simp [hvar] at hnone, fun j hj => ?_, fun k hk => ?_⟩
  · rw [hvar] at hj
    cases Option.some.inj hj
    exact hi
  · rw [hvar] at hk
    cases Option.some.inj hk

theorem splitTerms_mem : ∀ {cum : ℕ} {terms : List Term} {offset : ℕ} {t : Term},
    t ∈ (splitTerms size cum terms offset).1 → ∃ u ∈ terms, t.var = u.var
  | _, [], _, _, h => absurd h not_mem_nil
  | _, [u], _, t, h => by
    obtain rfl := mem_singleton.mp h
    exact ⟨u, mem_singleton_self u, rfl⟩
  | cum, u :: w :: rest, offset, t, h => by
    rcases mem_cons.mp h with rfl | h
    · exact ⟨u, mem_cons_self, rfl⟩
    · obtain ⟨x, hx, rfl⟩ := mem_map.mp h
      obtain ⟨y, hy, hvar⟩ := splitTerms_mem hx
      exact ⟨y, mem_cons_of_mem u hy, hvar⟩

theorem splitTerms_others {cum : ℕ} {others : List Term} {offset : ℕ} {inner : Term}
    (h : (splitTerms size cum terms offset).1 = inner :: others) : ∀ t ∈ others, t.num = 1 := by
  match terms, h with
  | [], h => exact absurd h.symm (cons_ne_nil _ _)
  | [u], h =>
    obtain ⟨-, rfl⟩ := List.cons.inj h
    simp
  | u :: w :: rest, h =>
    obtain ⟨-, rfl⟩ := List.cons.inj h
    intro t ht
    obtain ⟨x, -, rfl⟩ := mem_map.mp ht
    rfl

theorem splitTerms_zero (size : ℕ) : ∀ (cum : ℕ) (terms : List Term),
    (splitTerms size cum terms 0).2 = 0 ∧ ∀ t ∈ (splitTerms size cum terms 0).1, t.offset = 0
  | _, [] => ⟨rfl, fun t ht => absurd ht not_mem_nil⟩
  | _, [t] => ⟨Nat.zero_mod _, forall_mem_singleton.mpr (Nat.zero_div _)⟩
  | cum, t :: u :: rest => by
    obtain ⟨hleft, hoff⟩ := splitTerms_zero size (cum * (u.num / t.num)) (u :: rest)
    rw [splitTerms]
    dsimp only
    rw [hleft]
    refine ⟨Nat.zero_mod _, forall_mem_cons.mpr ⟨Nat.zero_div _, fun w hw => ?_⟩⟩
    obtain ⟨x, hx, rfl⟩ := mem_map.mp hw
    exact hoff x hx

/-- Where a term of dimension `d` comes from. Only a dimension that is not the stick takes a
synthetic variable, and it takes the next one. -/
inductive Term.Origin (d : ℕ × Coordinate) (stick : Bool) (k k' : ℕ) : Term → Prop
  | synthetic (size offset : ℕ) (hstick : stick = false) (hk : k < k')
      (hoff : d.2.offset = 0 → offset = 0) : Origin d stick k k' (Term.synthetic k size offset)
  | constant : Origin d stick k k' (Term.constant d.1)
  | loop (t : Term) (x : CoordTerm) (hx : x ∈ d.2.terms) (hvar : t.var = some (.loop x.var))
      (hnum : (stick = true → d.2.Unit) → t.num = 1) (hoff : d.2.offset = 0 → t.offset = 0) :
      Origin d stick k k' t

theorem realizeGap_origin {placed : List Term} (hplaced : Placed d.2 placed) (hc : d.2.Admitted n)
    (h : realizeGap ranges outermost stick d.2 k (splitTerms d.1 1 placed d.2.offset) =
      .ok (terms, k')) :
    terms ≠ [] ∧ k ≤ k' ∧ ∀ t ∈ terms, t.Origin d stick k k' := by
  obtain ⟨t, rest, inner, others, residual, rfl, hsplit, hnum, -, -, hcases⟩ :=
    realizeGap_cases hplaced.ne h
  have hmem : (splitTerms d.1 1 (t :: rest) d.2.offset).1 = inner :: others := by rw [hsplit]
  have hothers := splitTerms_others hmem
  have hloop : ∀ u ∈ inner :: others, ∃ x ∈ d.2.terms, u.var = some (.loop x.var) := by
    intro u hu
    obtain ⟨w, hw, hvar⟩ := splitTerms_mem (hmem ▸ hu)
    obtain ⟨x, hx, hxw⟩ := hplaced.loop w hw
    exact ⟨x, hx, hvar.trans hxw⟩
  have hoff : d.2.offset = 0 → residual = 0 ∧ ∀ u ∈ inner :: others, u.offset = 0 := by
    intro hzero
    have := splitTerms_zero d.1 1 (t :: rest)
    rwa [← hzero, hsplit, hzero] at this
  have hrest : ∀ u ∈ others, u.Origin d stick k k' := fun u hu => by
    obtain ⟨x, hx, hvar⟩ := hloop u (mem_cons_of_mem inner hu)
    exact .loop u x hx hvar (fun _ => hothers u hu) fun hzero =>
      (hoff hzero).2 u (mem_cons_of_mem inner hu)
  obtain ⟨x, hx, hvar⟩ := hloop inner mem_cons_self
  have hinner := fun hzero => (hoff hzero).2 inner mem_cons_self
  rcases hcases with ⟨size, -, hgap, rfl, rfl⟩ | ⟨hgap, -, rfl, rfl⟩
  · refine ⟨by simp, Nat.le_succ k, fun u hu => ?_⟩
    rcases mem_append.mp hu with hu | hu
    · rcases mem_cons.mp (mem_reverse.mp hu) with rfl | hu
      · exact .loop _ x hx hvar (fun _ => rfl) hinner
      · exact hrest u hu
    · obtain rfl := mem_singleton.mp hu
      exact .synthetic _ _ hgap.2 (Nat.lt_succ_self k) fun hzero => (hoff hzero).1
  · refine ⟨by simp, le_rfl, fun u hu => ?_⟩
    rcases mem_cons.mp (mem_reverse.mp hu) with rfl | hu
    · exact .loop u x hx hvar (fun hunit => hnum.trans
        (hplaced.head_num_of_not_gap hc hunit (hnum ▸ hgap))) hinner
    · exact hrest u hu

theorem splitDim_origin (hc : d.2.Admitted n)
    (h : splitDim ranges outermost stick d k = .ok (terms, k')) :
    terms ≠ [] ∧ k ≤ k' ∧ ∀ t ∈ terms, t.Origin d stick k k' := by
  unfold splitDim at h
  split_ifs at h with hnil hwide hzero
  · obtain ⟨rfl, rfl⟩ := Prod.mk.inj (Except.ok.inj h)
    refine ⟨cons_ne_nil _ _, Nat.le_succ k, forall_mem_singleton.mpr ?_⟩
    exact .synthetic _ _ (by simpa using hwide.2) (Nat.lt_succ_self k) id
  · obtain ⟨rfl, rfl⟩ := Prod.mk.inj (Except.ok.inj h)
    exact ⟨cons_ne_nil _ _, le_rfl, forall_mem_singleton.mpr .constant⟩
  · obtain ⟨placed, hplaced, h⟩ := bind_eq_ok_iff.mp h
    exact realizeGap_origin (placed_insertionSort hc hnil hplaced) hc h

/-- Every term belongs to a dimension, and dimensions take synthetic variables in order. -/
theorem splitDims_origin :
    ∀ {outermost : Bool} {k k' : ℕ} {tensor : Tensor} {terms : List Term},
      splitDims ranges outermost k tensor = .ok (terms, k') → (∀ d ∈ tensor, d.2.Admitted n) →
      k ≤ k' ∧ ∀ t ∈ terms, ∃ d ∈ tensor, ∃ stick j j',
        (stick = true → d ∈ tensor.getLast?) ∧ k ≤ j ∧ j' ≤ k' ∧ t.Origin d stick j j'
  | _, _, _, [], _, h, _ => by
    obtain ⟨rfl, rfl⟩ := Prod.mk.inj (Except.ok.inj h)
    exact ⟨le_rfl, fun t ht => absurd ht not_mem_nil⟩
  | outermost, k, _, d :: dims, _, h, hadm => by
    obtain ⟨⟨first, k₁⟩, hr, h⟩ := bind_eq_ok_iff.mp h
    obtain ⟨⟨rest, k₂⟩, hsplit, h⟩ := bind_eq_ok_iff.mp h
    obtain ⟨rfl, rfl⟩ := Prod.mk.inj (Except.ok.inj h)
    obtain ⟨-, hle, hfirst⟩ := splitDim_origin (hadm d mem_cons_self) hr
    obtain ⟨hle', hrest⟩ := splitDims_origin hsplit fun e he => hadm e (mem_cons_of_mem d he)
    refine ⟨hle.trans hle', fun t ht => ?_⟩
    rcases mem_append.mp ht with ht | ht
    · refine ⟨d, mem_cons_self, _, k, k₁, fun hs => ?_, le_rfl, hle', hfirst t ht⟩
      rw [List.isEmpty_iff.mp hs]
      exact rfl
    · obtain ⟨e, he, stick, j, j', hlast, hj, hj', ho⟩ := hrest t ht
      refine ⟨e, mem_cons_of_mem d he, stick, j, j', fun hs => ?_, hle.trans hj, hj', ho⟩
      exact mem_getLast?_cons (hlast hs)

/-- The innermost term belongs to the stick. -/
theorem splitDims_last :
    ∀ {outermost : Bool} {k k' : ℕ} {d : ℕ × Coordinate} {dims : Tensor} {terms : List Term},
      splitDims ranges outermost k (d :: dims) = .ok (terms, k') →
      (∀ e ∈ d :: dims, e.2.Admitted n) →
      ∃ init last, terms = init ++ [last] ∧
        ∃ e ∈ (d :: dims).getLast?, ∃ j j', last.Origin e true j j'
  | outermost, k, _, d, [], _, h, hadm => by
    obtain ⟨r, hr, h⟩ := bind_eq_ok_iff.mp h
    obtain ⟨rest, hsplit, h⟩ := bind_eq_ok_iff.mp h
    cases Except.ok.inj hsplit
    obtain ⟨rfl, -⟩ := Prod.mk.inj (Except.ok.inj h)
    obtain ⟨hne, -, ho⟩ := splitDim_origin (hadm d mem_cons_self) hr
    obtain ⟨init, last, hlast⟩ := (eq_nil_or_concat r.1).resolve_left hne
    exact ⟨init, last, by simp [hlast], d, rfl, _, _, ho last (by simp [hlast])⟩
  | outermost, k, _, d, e :: dims, _, h, hadm => by
    obtain ⟨r, hr, h⟩ := bind_eq_ok_iff.mp h
    obtain ⟨rest, hsplit, h⟩ := bind_eq_ok_iff.mp h
    obtain ⟨rfl, -⟩ := Prod.mk.inj (Except.ok.inj h)
    obtain ⟨init, last, hlast, f, hf, ho⟩ := splitDims_last hsplit fun f hf =>
      hadm f (mem_cons_of_mem d hf)
    exact ⟨r.1 ++ init, last, by rw [hlast, append_assoc], f, hf, ho⟩

theorem Term.Origin.not_synth {t : Term} (h : t.Origin d true k k') (j : ℕ) :
    t.var ≠ some (.synth j) := by
  intro hj
  cases h with
  | synthetic size offset hstick => cases hstick
  | constant => cases hj
  | loop _ x hx hvar =>
    rw [hvar] at hj
    cases Option.some.inj hj

theorem Term.Origin.offset_eq_zero {t : Term} (h : t.Origin d stick k k') (hd : d.2.offset = 0) :
    t.offset = 0 := by
  cases h with
  | synthetic size offset hstick hk hoff => exact hoff hd
  | constant => rfl
  | loop _ x hx hvar hnum hoff => exact hoff hd

theorem Packed.last : ∀ {outermost : Bool} {tensor : Tensor}, Packed outermost tensor →
    ∀ d ∈ tensor.getLast?, d.2.Unit
  | _, [], _, _, hd => by cases hd
  | _, [d], h, _, hd => Option.some.inj hd ▸ h.2.1 rfl
  | _, _ :: _ :: _, h, e, hd => Packed.last h.2.2 e hd

theorem splitDims_shaped {tensor : Tensor}
    (h : splitDims ranges outermost k tensor = .ok (terms, k')) (hpacked : Packed outermost tensor)
    (hadm : ∀ d ∈ tensor, d.2.Admitted n) (hsize : ∀ d ∈ tensor, d.1 ∈ sizes) :
    ∀ t ∈ terms, t.Shaped n sizes := by
  intro t ht
  obtain ⟨d, hd, stick, j, j', hlast, -, -, ho⟩ := (splitDims_origin h hadm).2 t ht
  cases ho with
  | synthetic size offset => exact Term.shaped_synthetic j size offset
  | constant => exact Term.shaped_constant (hsize d hd)
  | loop _ x hx hvar hnum =>
    refine Term.shaped_of_loop hvar ((hadm d hd).lt x hx) (hnum fun hs => ?_)
    exact hpacked.last d (hlast hs)

end Shaped

/-! ## Fusing -/

/-- An outer and an inner term that continue one another. -/
def Term.Joins (t u : Term) : Prop :=
  t.var ≠ none ∧ t.var = u.var ∧ t.den = u.mod

instance (t u : Term) : Decidable (t.Joins u) :=
  inferInstanceAs (Decidable (t.var ≠ none ∧ t.var = u.var ∧ t.den = u.mod))

/-- Terms that continue one another and stand side by side, or with dimensions of size one
between them if there is neither padding nor an offset. -/
def Term.Fuses (t u : Term) (skipped : Bool) : Prop :=
  t.Joins u ∧ (skipped = true → t.offset = 0 ∧ t.den = u.den * u.dimSize)

instance (t u : Term) (skipped : Bool) : Decidable (t.Fuses u skipped) :=
  inferInstanceAs (Decidable (_ ∧ (_ → _)))

/-- The inner one has no padding or the outer one stays zero, and the outer one does not wrap in
the middle of the inner one. -/
structure Term.Dense (range : Var → ℕ) (t u : Term) : Prop where
  packed : t.den = u.den * u.dimSize ∨ ∀ v, t.var = some v → range v ≤ t.den
  whole : t.den ∣ t.mod ∨ ∀ v, t.var = some v → range v ≤ t.mod

/-- Neighbours that are fused, here put together to the end. -/
def runs (cur : Term) (skipped : Bool) : List Term → List Term
  | [] => [cur]
  | t :: terms =>
    if t.isPlaceholder then runs cur true terms
    else if cur.Fuses t skipped then runs (cur.fuse t) false terms
    else cur :: runs t false terms

/-- Neighbours that are fused are dense. -/
def Tight (range : Var → ℕ) (cur : Term) (skipped : Bool) : List Term → Prop
  | [] => True
  | t :: terms =>
    if t.isPlaceholder then Tight range cur true terms
    else if cur.Fuses t skipped then cur.Dense range t ∧ Tight range (cur.fuse t) false terms
    else Tight range t false terms

/-- Of neighbours that are fused the outer one has no offset, unless the inner one has size one. -/
def Settled (cur : Term) (skipped : Bool) : List Term → Prop
  | [] => True
  | t :: terms =>
    if t.isPlaceholder then Settled cur true terms
    else if cur.Fuses t skipped then
      (cur.offset = 0 ∨ t.dimSize = 1) ∧ Settled (cur.fuse t) false terms
    else Settled t false terms

section Fusing

variable {n : ℕ} {sizes : Set ℕ} {range : Var → ℕ}

variable {t u : Term} {pt : Var → ℕ}

theorem Term.Shaped.fuse (ht : t.Shaped n sizes) (hu : u.Shaped n sizes) (h : t.Joins u) :
    (t.fuse u).Shaped n sizes :=
  ⟨fun hne => hu.num (h.2.1 ▸ hne), fun hnone => absurd hnone h.1, fun i hi => ht.loop i hi,
    fun k hk => ⟨(hu.synth k (h.2.1 ▸ hk)).1, (ht.synth k hk).2⟩⟩

theorem canFuse_iff {skipped : Bool} (ht : t.Shaped n sizes) (hu : u.Shaped n sizes) :
    canFuse t u skipped = true ↔ t.Fuses u skipped := by
  have hvar : t.num = 1 ↔ t.var ≠ none := by
    refine ⟨fun hone hnone => ?_, ht.num⟩
    have hzero := (ht.constant hnone).1
    omega
  have hnum : t.var ≠ none → t.var = u.var → u.num = 1 := fun hne heq => hu.num (heq ▸ hne)
  cases skipped with
  | false => simp [canFuse, Term.Fuses, Term.Joins, hvar, and_assoc]
  | true =>
    simp only [canFuse, Term.Fuses, Term.Joins, Bool.not_true, Bool.false_or, Bool.and_eq_true,
      decide_eq_true_eq, hvar, and_assoc, forall_const]
    exact and_congr_right fun hne => and_congr_right fun heq => by simp [hnum hne heq]

/-- The loop puts the runs together. -/
theorem fuseTerms_eq :
    ∀ {terms : List Term} {cur : Term} {skipped : Bool}, (∀ t ∈ cur :: terms, t.Shaped n sizes) →
      fuseTerms cur skipped terms = (runs cur skipped terms).flatMap Term.flush
  | [], cur, skipped, _ => by simp [fuseTerms, runs]
  | t :: terms, cur, skipped, hshape => by
    simp only [forall_mem_cons] at hshape
    obtain ⟨hcur, ht, hterms⟩ := hshape
    unfold fuseTerms runs
    simp only [canFuse_iff hcur ht]
    split_ifs with hplace hfuse
    · exact fuseTerms_eq (forall_mem_cons.mpr ⟨hcur, hterms⟩)
    · exact fuseTerms_eq (forall_mem_cons.mpr ⟨hcur.fuse ht hfuse.1, hterms⟩)
    · rw [fuseTerms_eq (forall_mem_cons.mpr ⟨ht, hterms⟩), flatMap_cons]

/-- Fusing keeps the value. -/
theorem Term.value_fuse (hjoin : t.Joins u) (hdense : t.Dense range u)
    (hoff : t.offset = 0 ∨ u.dimSize = 1) (hpt : ∀ v, t.var = some v → pt v < range v) :
    (t.fuse u).value pt = t.value pt * u.dimSize + u.value pt := by
  obtain ⟨hne, hvar, hmod⟩ := hjoin
  obtain ⟨v, hv⟩ := Option.ne_none_iff_exists'.mp hne
  have hlt := hpt v hv
  have hsplit : pt v % t.mod / t.den * u.dimSize + pt v % t.den / u.den = pt v % t.mod / u.den := by
    rcases hdense.packed with hpacked | hzero
    · rcases Nat.eq_zero_or_pos u.den with hzero | hpos
      · simp [hpacked, hzero]
      · have hsize : t.den / u.den = u.dimSize := by
          rw [hpacked, Nat.mul_div_cancel_left _ hpos]
        have hlo : u.den ∣ t.den := ⟨u.dimSize, hpacked⟩
        rcases hdense.whole with hdvd | hrange
        · have := mod_div_split (pt v) hlo hdvd
          rwa [hsize] at this
        · -- the outer term does not wrap at all
          have := div_split (pt v) hlo
          rw [hsize] at this
          rwa [Nat.mod_eq_of_lt (hlt.trans_le (hrange v hv))]
    · -- the outer term stays zero
      have hden := hlt.trans_le (hzero v hv)
      have hwrap : pt v % t.mod = pt v := by
        rcases hdense.whole with hdvd | hrange
        · rcases Nat.eq_zero_or_pos t.mod with hmod | hmod
          · rw [hmod, Nat.mod_zero]
          · exact Nat.mod_eq_of_lt (hden.trans_le (Nat.le_of_dvd hmod hdvd))
        · exact Nat.mod_eq_of_lt (hlt.trans_le (hrange v hv))
      rw [hwrap, Nat.mod_eq_of_lt hden, Nat.div_eq_of_lt hden, Nat.zero_mul, Nat.zero_add]
  have hscaled : t.offset * u.dimSize = t.offset := by
    rcases hoff with hoff | hoff
    · rw [hoff, Nat.zero_mul]
    · rw [hoff, Nat.mul_one]
  simp only [Term.value, Term.fuse, ← hvar, hv, Option.elim_some, ← hmod, Nat.add_mul, hscaled]
  omega

theorem Term.isPlaceholder_iff :
    t.isPlaceholder = true ↔ t.var = none ∧ t.dimSize = 1 ∧ t.offset = 0 := by
  simp [Term.isPlaceholder, and_assoc]

/-- Runs have the address of their terms. -/
theorem runs_address :
    ∀ {terms : List Term} {cur : Term} {skipped : Bool}, Tight range cur skipped terms →
      Settled cur skipped terms → (∀ t ∈ cur :: terms, ∀ v, t.var = some v → pt v < range v) →
      address ((runs cur skipped terms).map (Term.dim pt)) =
          address ((cur :: terms).map (Term.dim pt)) ∧
        volume ((runs cur skipped terms).map (Term.dim pt)) =
          volume ((cur :: terms).map (Term.dim pt))
  | [], cur, _, _, _, _ => ⟨rfl, rfl⟩
  | t :: terms, cur, skipped, htight, hset, hpt => by
    simp only [forall_mem_cons] at hpt
    obtain ⟨hcur, ht, hterms⟩ := hpt
    unfold Tight at htight
    unfold Settled at hset
    unfold runs
    by_cases hplace : t.isPlaceholder = true
    · rw [if_pos hplace] at htight hset ⊢
      obtain ⟨hvar, hsize, hoff⟩ := Term.isPlaceholder_iff.mp hplace
      obtain ⟨haddr, hvol⟩ := runs_address htight hset (forall_mem_cons.mpr ⟨hcur, hterms⟩)
      have hvalue : t.value pt = 0 := by simp [Term.value, hvar, hoff]
      rw [haddr, hvol]
      simp [hsize, hvalue]
    · rw [if_neg hplace] at htight hset ⊢
      by_cases hfuse : cur.Fuses t skipped
      · rw [if_pos hfuse] at htight hset ⊢
        obtain ⟨haddr, hvol⟩ := runs_address htight.2 hset.2
          (forall_mem_cons.mpr ⟨hcur, hterms⟩)
        have hvalue := Term.value_fuse hfuse.1 htight.1 hset.1 hcur
        have hsize : (cur.fuse t).dimSize = cur.dimSize * t.dimSize := rfl
        rw [haddr, hvol]
        simp only [map_cons, address_cons, volume_cons, Term.dim_fst, Term.dim_snd, hvalue, hsize]
        constructor
        · ring
        · ring
      · rw [if_neg hfuse] at htight hset ⊢
        obtain ⟨haddr, hvol⟩ := runs_address htight hset (forall_mem_cons.mpr ⟨ht, hterms⟩)
        rw [map_cons, address_cons, volume_cons, haddr, hvol, map_cons (f := Term.dim pt),
          address_cons, volume_cons]
        exact ⟨rfl, rfl⟩

theorem runs_shaped :
    ∀ {terms : List Term} {cur : Term} {skipped : Bool}, (∀ t ∈ cur :: terms, t.Shaped n sizes) →
      ∀ t ∈ runs cur skipped terms, t.Shaped n sizes
  | [], cur, _, h => by simpa [runs] using h
  | t :: terms, cur, _, h => by
    simp only [forall_mem_cons] at h
    obtain ⟨hcur, ht, hterms⟩ := h
    unfold runs
    split_ifs with hplace hfuse
    · exact runs_shaped (forall_mem_cons.mpr ⟨hcur, hterms⟩)
    · exact runs_shaped (forall_mem_cons.mpr ⟨hcur.fuse ht hfuse.1, hterms⟩)
    · exact forall_mem_cons.mpr
        ⟨hcur, runs_shaped (forall_mem_cons.mpr ⟨ht, hterms⟩)⟩

theorem mem_flush (h : u ∈ t.flush) : u = t := by
  unfold Term.flush at h
  split_ifs at h
  · exact mem_singleton.mp h
  · exact absurd h not_mem_nil

/-- What is not emitted has no extent. -/
theorem Term.Shaped.flush (h : t.Shaped n sizes) (hpos : ∀ s ∈ sizes, 0 < s) (pt : Var → ℕ) :
    address (t.flush.map (Term.dim pt)) = address [t.dim pt] ∧
      volume (t.flush.map (Term.dim pt)) = volume [t.dim pt] := by
  unfold Term.flush
  split_ifs with hemit
  · exact ⟨rfl, rfl⟩
  · push Not at hemit
    obtain ⟨-, hoff, hsize⟩ := h.constant hemit.2
    have hone : t.dimSize = 1 := by
      have := hpos _ hsize
      omega
    simp [Term.value, hemit.2, hoff, hone]

end Fusing

/-! ## Normalized tensors -/

/-- The terms of a tensor with its runs put together. -/
def joined (ranges : ℕ → ℕ) (tensor : Tensor) : Except AlignError Normal := do
  let r ← splitDims ranges true 0 tensor
  match r.1 with
  | [] => .error .noDimension
  | t :: terms => .ok ⟨(runs t false terms.dropLast).flatMap Term.flush, terms.getLastD t, r.2⟩

/-- A tensor is packed, has more than one term, and its runs are dense. -/
structure Tensor.Neat (ranges : ℕ → ℕ) (range : Var → ℕ) (tensor : Tensor) : Prop where
  packed : Packed true tensor
  several : ∀ t terms k, splitDims ranges true 0 tensor = .ok (t :: terms, k) → terms ≠ []
  tight : ∀ t terms k, splitDims ranges true 0 tensor = .ok (t :: terms, k) →
    Tight range t false terms.dropLast

/-- Of every run only the innermost term has an offset, up to sizes of one. -/
def Tensor.Settled (ranges : ℕ → ℕ) (tensor : Tensor) : Prop :=
  ∀ t terms k, splitDims ranges true 0 tensor = .ok (t :: terms, k) →
    Alignment.Settled t false terms.dropLast

/-- A tensor without padding in its runs, and what it is normalized to. -/
structure Normalizes (n : ℕ) (ranges : ℕ → ℕ) (range : Var → ℕ) (tensor : Tensor) (N : Normal) :
    Prop where
  neat : tensor.Neat ranges range
  settled : tensor.Settled ranges
  coords : ∀ d ∈ tensor, d.2.Admitted n
  eq_ok : normalizeCoordinates ranges tensor = .ok N

namespace Normalizes

variable {n : ℕ} {ranges : ℕ → ℕ} {range : Var → ℕ} {tensor : Tensor} {N : Normal}
  (h : Normalizes n ranges range tensor N)
include h

/-- What a normalized tensor is made of. -/
theorem exists_runs :
    ∃ t terms, splitDims ranges true 0 tensor = .ok (t :: terms ++ [N.stick], N.synths) ∧
      N.outer = (runs t false terms).flatMap Term.flush ∧ Tight range t false terms ∧
      Alignment.Settled t false terms := by
  obtain ⟨⟨all, k⟩, hsplit, hok⟩ := bind_eq_ok_iff.mp h.eq_ok
  cases all with
  | nil => cases hok
  | cons t terms =>
    obtain rfl := Except.ok.inj hok
    have hne := h.neat.several t terms k hsplit
    have htight := h.neat.tight t terms k hsplit
    have hsettled := h.settled t terms k hsplit
    have hlast : t :: terms.dropLast ++ [terms.getLastD t] = t :: terms := by
      rw [cons_append, getLastD_eq_getLast?, getLast?_eq_some_getLast hne,
        Option.getD_some, dropLast_concat_getLast]
    refine ⟨t, terms.dropLast, by rw [hlast]; exact hsplit, ?_, htight, hsettled⟩
    have hshape : ∀ u ∈ t :: terms.dropLast, u.Shaped n Set.univ := fun u hu =>
      splitDims_shaped hsplit h.neat.packed h.coords (fun _ _ => Set.mem_univ _) u
        (hlast ▸ mem_append_left _ hu)
    exact fuseTerms_eq hshape

theorem joined_eq_ok : joined ranges tensor = .ok N := by
  obtain ⟨t, terms, hsplit, houter, -, -⟩ := h.exists_runs
  obtain ⟨outer, stick, synths⟩ := N
  dsimp only at hsplit houter
  subst houter
  rw [joined, hsplit]
  simp [bind, Except.bind]

/-- The terms of a normalized tensor have the shape of terms, and the stick is not synthetic. -/
theorem shaped {sizes : Set ℕ} (hsizes : ∀ d ∈ tensor, d.1 ∈ sizes) :
    (∀ t ∈ N.outer ++ [N.stick], t.Shaped n sizes) ∧ ∀ k, N.stick.var ≠ some (.synth k) := by
  obtain ⟨t, terms, hsplit, houter, -, -⟩ := h.exists_runs
  have hshape := splitDims_shaped hsplit h.neat.packed h.coords hsizes
  have hruns : ∀ u ∈ runs t false terms, u.Shaped n sizes :=
    runs_shaped fun u hu => hshape u (mem_append_left [N.stick] hu)
  refine ⟨fun u hu => ?_, ?_⟩
  · rcases mem_append.mp hu with hu | hu
    · rw [houter] at hu
      obtain ⟨r, hr, hru⟩ := mem_flatMap.mp hu
      exact mem_flush hru ▸ hruns r hr
    · exact hshape u (mem_append_right _ hu)
  · cases tensor with
    | nil => cases Except.ok.inj hsplit
    | cons d dims =>
      obtain ⟨init, last, hlast, e, -, j, j', ho⟩ := splitDims_last hsplit h.coords
      rw [singleton_inj.mp (append_inj' hlast rfl).2]
      exact ho.not_synth

/-- Normalization keeps the address. -/
theorem address_eq {pt : Var → ℕ} (hranges : ∀ i < n, pt (.loop i) < ranges i)
    (hrange : ∀ t : Term, t.Shaped n {s | 0 < s} → ∀ v, t.var = some v → pt v < range v)
    (hin : ∀ d ∈ tensor, d.2.eval pt < d.1) :
    address ((N.outer ++ [N.stick]).map (Term.dim pt)) = address (tensor.at pt) := by
  obtain ⟨t, terms, hsplit, houter, htight, hsettled⟩ := h.exists_runs
  have hshape : ∀ u ∈ t :: terms ++ [N.stick], u.Shaped n {s | 0 < s} :=
    splitDims_shaped hsplit h.neat.packed h.coords fun d hd => Nat.zero_lt_of_lt (hin d hd)
  have hplaced := (splitDims_eq_ok hsplit h.neat.packed h.coords
    (fun d hd x hx => hranges x.var ((h.coords d hd).lt x hx)) hin).1
  have hterms : ∀ u ∈ t :: terms, u.Shaped n {s | 0 < s} := fun u hu =>
    hshape u (mem_append_left [N.stick] hu)
  obtain ⟨haddr, -⟩ := runs_address htight hsettled fun u hu => hrange u (hterms u hu)
  have hflush : ∀ r ∈ runs t false terms, _ := fun r hr =>
    (runs_shaped hterms r hr).flush (fun _ hs => hs) pt
  have hemit : address (N.outer.map (Term.dim pt)) =
      address ((runs t false terms).map (Term.dim pt)) := by
    rw [houter, map_flatMap, map_eq_flatMap]
    exact address_flatMap (fun r hr => (hflush r hr).1) fun pre r post hl =>
      Or.inl (hflush r (by simp [hl])).2
  rw [← hplaced, map_append, map_append, address_append, address_append, hemit, haddr]

end Normalizes

end Alignment

end TorchSpyre
