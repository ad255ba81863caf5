import Mathlib
import TorchSpyre.Contiguous
import TorchSpyre.Loops
import TorchSpyre.Views.Coordinates

/-!
# What one call adds

The dimensions of size above one carry the coordinates of an access, and the coordinates times
the strides should add up to the index. One call of `add_term` adds to the dimension its step falls
on and to those it crosses on the way to its limit (`addTerm_cases`). These are a ladder, so the
call spreads its value exactly if the step falls on a dimension that divides it
(`contribution_exact`). The digits of the constant are exact always.
-/

open Finset

namespace TorchSpyre

open Checked

namespace Views

variable {D : Dims}

/-! ## Layouts -/

/-- The dimensions of size above one. -/
def Dims.wide (D : Dims) : Finset ℕ :=
  (range D.n).filter fun d => 1 < D.size d

/-- The wide dimensions have distinct positive strides, the smallest is one, and each divides the
next larger one. -/
structure Nested (D : Dims) : Prop where
  pos : ∀ d ∈ D.wide, 0 < D.stride d
  inj : ∀ d ∈ D.wide, ∀ e ∈ D.wide, D.stride d = D.stride e → d = e
  one : ∃ d ∈ D.wide, D.stride d = 1
  dvd : ∀ d ∈ D.wide, ∀ e ∈ D.wide, D.stride d < D.stride e →
    (∀ f ∈ D.wide, D.stride d < D.stride f → D.stride e ≤ D.stride f) → D.stride d ∣ D.stride e

theorem mem_wide {d : ℕ} : d ∈ D.wide ↔ d < D.n ∧ 1 < D.size d := by
  simp [Dims.wide]

/-- What the loop over the first `k` dimensions has found of the next stride. -/
def IsNext (D : Dims) (i k : ℕ) : Option ℤ → Prop
  | none => ∀ j < k, 1 < D.size j → D.stride j ≤ D.stride i
  | some s => (∃ j < k, 1 < D.size j ∧ D.stride j = s) ∧ D.stride i < s ∧
      ∀ j < k, 1 < D.size j → D.stride i < D.stride j → s ≤ D.stride j

theorem isNext_step {i k : ℕ} {next : Option ℤ} (h : IsNext D i k next) :
    IsNext D i (k + 1) (if below (D.stride k) next ∧ D.stride i < D.stride k ∧ 1 < D.size k then
      some (D.stride k) else next) := by
  split_ifs with hk
  · refine ⟨⟨k, Nat.lt_succ_self k, hk.2.2, rfl⟩, hk.2.1, fun j hj hwide hlt => ?_⟩
    rcases Nat.lt_succ_iff_lt_or_eq.mp hj with hj | rfl
    · cases next with
      | none => exact absurd (h j hj hwide) (not_le.mpr hlt)
      | some s => exact (of_decide_eq_true hk.1).le.trans (h.2.2 j hj hwide hlt)
    · exact le_rfl
  · cases next with
    | none =>
      intro j hj hwide
      rcases Nat.lt_succ_iff_lt_or_eq.mp hj with hj | rfl
      · exact h j hj hwide
      · exact not_lt.mp fun hlt => hk ⟨rfl, hlt, hwide⟩
    | some s =>
      obtain ⟨⟨j, hj, hwide, hs⟩, hlt, hleast⟩ := h
      refine ⟨⟨j, hj.trans (Nat.lt_succ_self k), hwide, hs⟩, hlt, fun f hf hfwide hfi => ?_⟩
      rcases Nat.lt_succ_iff_lt_or_eq.mp hf with hf | rfl
      · exact hleast f hf hfwide hfi
      · exact not_lt.mp fun hlow => hk ⟨decide_eq_true hlow, hfi, hfwide⟩

theorem isNext_nextStride (i : ℕ) : IsNext D i D.n (nextStride D i) := by
  unfold nextStride
  induction D.n with
  | zero => exact fun j hj => absurd hj (Nat.not_lt_zero j)
  | succ k ih =>
    rw [List.range_succ, List.foldl_append]
    exact isNext_step ih

theorem nextStride_some {i : ℕ} {s : ℤ} (h : nextStride D i = some s) :
    (∃ j ∈ D.wide, D.stride j = s) ∧ D.stride i < s ∧
      ∀ f ∈ D.wide, D.stride i < D.stride f → s ≤ D.stride f := by
  have hnext := isNext_nextStride (D := D) i
  rw [h] at hnext
  obtain ⟨⟨j, hj, hwide, hs⟩, hlt, hleast⟩ := hnext
  exact ⟨⟨j, mem_wide.mpr ⟨hj, hwide⟩, hs⟩, hlt, fun f hf =>
    hleast f (mem_wide.mp hf).1 (mem_wide.mp hf).2⟩

theorem nextStride_none {i : ℕ} (h : nextStride D i = none) :
    ∀ f ∈ D.wide, D.stride f ≤ D.stride i := by
  have hnext := isNext_nextStride (D := D) i
  rw [h] at hnext
  exact fun f hf => hnext f (mem_wide.mp hf).1 (mem_wide.mp hf).2

/-! ## The primary dimension -/

/-- The dimension a step falls on : the first, among those not of size one, with the largest
positive stride up to the step. -/
structure Primary (D : Dims) (step : ℤ) (p : ℕ) : Prop where
  lt : p < D.n
  size_ne : D.size p ≠ 1
  pos : 0 < D.stride p
  le : D.stride p ≤ step
  max : ∀ d < D.n, D.size d ≠ 1 → D.stride d ≤ step →
    D.stride d ≤ D.stride p ∧ (D.stride d = D.stride p → p ≤ d)

theorem Primary.unique {step : ℤ} {p q : ℕ} (hp : Primary D step p) (hq : Primary D step q) :
    p = q := by
  have hpq := hp.max q hq.lt hq.size_ne hq.le
  have hqp := hq.max p hp.lt hp.size_ne hp.le
  have heq : D.stride p = D.stride q := le_antisymm hqp.1 hpq.1
  exact le_antisymm (hpq.2 heq.symm) (hqp.2 heq)

/-- What the loop of `add_term` has found of the primary dimension among the first `k`. -/
structure Found (D : Dims) (step : ℤ) (k : ℕ) (st : Adding) : Prop where
  nonneg : 0 ≤ st.primaryStride
  unset : st.primaryDim = none → st.primaryStride = 0
  set : ∀ p, st.primaryDim = some p → p < k ∧ D.size p ≠ 1 ∧ D.stride p = st.primaryStride ∧
    0 < D.stride p ∧ D.stride p ≤ step
  max : ∀ d < k, D.size d ≠ 1 → D.stride d ≤ step → D.stride d ≤ st.primaryStride ∧
    ∀ p, st.primaryDim = some p → D.stride d = D.stride p → p ≤ d

theorem Found.step {step : ℤ} {k : ℕ} {st : Adding} (h : Found D step k st) (node : Node)
    (limit : Option ℤ) : Found D step (k + 1) (addStep D node step limit st k) := by
  -- the dimension is passed over
  have hpass : ∀ coords, (D.size k ≠ 1 → D.stride k ≤ step → D.stride k ≤ st.primaryStride) →
      Found D step (k + 1) { st with coords } := by
    refine fun coords hk => ⟨h.nonneg, h.unset, fun p hp => ?_, fun d hd hsize hle => ?_⟩
    · exact ⟨(h.set p hp).1.trans (Nat.lt_succ_self k), (h.set p hp).2⟩
    · rcases Nat.lt_succ_iff_lt_or_eq.mp hd with hd | rfl
      · exact h.max d hd hsize hle
      · exact ⟨hk hsize hle, fun p hp _ => (h.set p hp).1.le⟩
  unfold addStep
  split_ifs with hone hbetter hcross
  · exact hpass _ fun hsize => absurd hone hsize
  · have hpos : 0 < D.stride k := h.nonneg.trans_lt hbetter.2
    refine ⟨hpos.le, fun hn => absurd hn (Option.some_ne_none k), fun p hp => ?_,
      fun d hd hsize hle => ?_⟩
    · obtain rfl := Option.some.inj hp
      exact ⟨Nat.lt_succ_self k, hone, rfl, hpos, hbetter.1⟩
    · rcases Nat.lt_succ_iff_lt_or_eq.mp hd with hd | rfl
      · have hlt := (h.max d hd hsize hle).1.trans_lt hbetter.2
        refine ⟨hlt.le, fun p hp heq => ?_⟩
        obtain rfl := Option.some.inj hp
        exact absurd heq hlt.ne
      · exact ⟨le_rfl, fun p hp _ => (Option.some.inj hp).ge⟩
  · exact hpass _ fun _ hle => absurd hle (not_le.mpr hcross.1)
  · exact hpass _ fun _ hle => not_lt.mp fun hlt => hbetter ⟨hle, hlt⟩

theorem Found.primary {step : ℤ} {st : Adding} (h : Found D step D.n st) {p : ℕ}
    (hp : st.primaryDim = some p) : Primary D step p := by
  obtain ⟨hlt, hsize, hstride, hpos, hle⟩ := h.set p hp
  refine ⟨hlt, hsize, hpos, hle, fun d hd hne hdle => ?_⟩
  obtain ⟨hmax, hfirst⟩ := h.max d hd hne hdle
  exact ⟨hstride ▸ hmax, hfirst p hp⟩

/-- Every positive step falls on some dimension. -/
theorem Found.exists_primary {step : ℤ} {st : Adding} (hD : Nested D) (hstep : 0 < step)
    (h : Found D step D.n st) : ∃ p, st.primaryDim = some p := by
  cases hp : st.primaryDim with
  | some p => exact ⟨p, rfl⟩
  | none =>
    obtain ⟨d, hd, hone⟩ := hD.one
    obtain ⟨hdn, hwide⟩ := mem_wide.mp hd
    have hle := (h.max d hdn (by omega) (by omega)).1
    rw [h.unset hp] at hle
    omega

/-! ## Sums of coordinates -/

/-- The coordinates of the wide dimensions times their strides. -/
def sumAt (D : Dims) (coords : Coordinates) (pt : ℕ → ℕ) : ℤ :=
  ∑ d ∈ D.wide, (coords d).eval pt * D.stride d

theorem eval_add (coords : Coordinates) (dim : ℕ) (p : Piece) (pt : ℕ → ℕ) (d : ℕ) :
    (coords.add dim p d).eval pt = (coords d).eval pt + if d = dim then p.eval pt else 0 := by
  unfold Coordinates.add
  by_cases hd : d = dim
  · subst hd
    rw [Function.update_self, if_pos rfl]
    simp [Coordinate.eval, add_assoc]
  · rw [Function.update_of_ne hd, if_neg hd, add_zero]

/-- Adding an expression to one dimension. -/
theorem sumAt_add (coords : Coordinates) (dim : ℕ) (p : Piece) (pt : ℕ → ℕ) :
    sumAt D (coords.add dim p) pt =
      sumAt D coords pt + if dim ∈ D.wide then p.eval pt * D.stride dim else 0 := by
  unfold sumAt
  simp only [eval_add, add_mul, sum_add_distrib, ite_mul, zero_mul, sum_ite_eq']

/-- The dimensions that a step of `add_term` crosses on the way to the limit. -/
def crossed (D : Dims) (step : ℤ) (limit : Option ℤ) : Finset ℕ :=
  D.wide.filter fun d => step < D.stride d ∧ below (D.stride d) limit = true

theorem mem_crossed {step : ℤ} {d : ℕ} {limit : Option ℤ} : d ∈ crossed D step limit ↔
    d ∈ D.wide ∧ step < D.stride d ∧ below (D.stride d) limit = true :=
  mem_filter

theorem sumAt_addStep (node : Node) (step : ℤ) (limit : Option ℤ) (st : Adding) (pt : ℕ → ℕ)
    (k : ℕ) :
    sumAt D (addStep D node step limit st k).coords pt = sumAt D st.coords pt +
      if k ∈ crossed D step limit then (pieceAt D node step limit k).eval pt * D.stride k
      else 0 := by
  unfold addStep
  by_cases hcross : k ∈ crossed D step limit
  · obtain ⟨hwide, hlt, hbelow⟩ := mem_crossed.mp hcross
    have hone : D.size k ≠ 1 := by have := (mem_wide.mp hwide).2; omega
    rw [if_neg hone, if_neg fun h => not_le.mpr hlt h.1, if_pos ⟨hlt, hbelow⟩, sumAt_add,
      if_pos hwide, if_pos hcross]
  · rw [if_neg hcross, add_zero]
    split_ifs with hone hbetter hlimit
    · rfl
    · rfl
    · -- The dimension has no elements : it gets a coordinate that is not counted.
      have hwide : k ∉ D.wide := fun h => hcross (mem_crossed.mpr ⟨h, hlimit⟩)
      rw [sumAt_add, if_neg hwide, add_zero]
    · rfl

/-- The loop of `add_term` finds the primary dimension and adds to the crossed ones. -/
theorem foldl_addStep (node : Node) (step : ℤ) (limit : Option ℤ) (coords : Coordinates) (k : ℕ) :
    Found D step k ((List.range k).foldl (addStep D node step limit) ⟨0, none, coords⟩) ∧
      ∀ pt, sumAt D ((List.range k).foldl (addStep D node step limit) ⟨0, none, coords⟩).coords pt =
        sumAt D coords pt + ∑ d ∈ range k, if d ∈ crossed D step limit then
          (pieceAt D node step limit d).eval pt * D.stride d else 0 := by
  induction k with
  | zero =>
    refine ⟨⟨le_rfl, fun _ => rfl, fun p hp => absurd hp.symm (Option.some_ne_none p),
      fun d hd => absurd hd (Nat.not_lt_zero d)⟩, fun pt => ?_⟩
    simp
  | succ k ih =>
    obtain ⟨hfound, hsum⟩ := ih
    rw [List.range_succ, List.foldl_append]
    refine ⟨hfound.step node limit, fun pt => ?_⟩
    rw [List.foldl_cons, List.foldl_nil, sumAt_addStep, hsum, sum_range_succ, add_assoc]

theorem exists_primary (hD : Nested D) {step : ℤ} (hstep : 0 < step) : ∃ p, Primary D step p := by
  obtain ⟨hfound, -⟩ := foldl_addStep (D := D) (.const 0) step none (fun _ => {}) D.n
  obtain ⟨p, hp⟩ := hfound.exists_primary hD hstep
  exact ⟨p, hfound.primary hp⟩

/-! ## One call of `add_term` -/

open Classical in
/-- What a call adds to the sum : it adds to its primary dimension and to the crossed ones. -/
noncomputable def contribution (D : Dims) (node : Node) (step : ℤ) (limit : Option ℤ)
    (pt : ℕ → ℕ) : ℤ :=
  ∑ d ∈ D.wide with Primary D step d ∨ d ∈ crossed D step limit,
    (pieceAt D node step limit d).eval pt * D.stride d

section Contribution

variable {node : Node} {step : ℤ} {limit : Option ℤ} {pt : ℕ → ℕ}

theorem not_primary_of_crossed {d : ℕ} (h : d ∈ crossed D step limit) : ¬Primary D step d :=
  fun hp => not_le.mpr (mem_crossed.mp h).2.1 hp.le

open Classical in
theorem contribution_eq_add : contribution D node step limit pt =
    (∑ d ∈ crossed D step limit, (pieceAt D node step limit d).eval pt * D.stride d) +
      ∑ d ∈ D.wide with Primary D step d, (pieceAt D node step limit d).eval pt * D.stride d := by
  have hcrossed : (D.wide.filter fun d => d ∈ crossed D step limit) = crossed D step limit := by
    ext d
    exact ⟨fun hd => (mem_filter.mp hd).2, fun hd => mem_filter.mpr ⟨(mem_crossed.mp hd).1, hd⟩⟩
  have hdisjoint : Disjoint (D.wide.filter (Primary D step)) (crossed D step limit) :=
    disjoint_left.mpr fun d hp hd => not_primary_of_crossed hd (mem_filter.mp hp).2
  rw [contribution, filter_or, hcrossed, sum_union hdisjoint, add_comm]

theorem contribution_eq {p : ℕ} (hp : Primary D step p) :
    contribution D node step limit pt =
      (∑ d ∈ crossed D step limit, (pieceAt D node step limit d).eval pt * D.stride d) +
        if p ∈ D.wide then (pieceAt D node step limit p).eval pt * D.stride p else 0 := by
  classical
  have hprimary : ∀ d, Primary D step d ↔ d = p := fun d =>
    ⟨fun hd => hd.unique hp, fun hd => hd ▸ hp⟩
  simp only [contribution_eq_add, hprimary, sum_filter, sum_ite_eq']

theorem contribution_of_not_primary (h : ∀ p, ¬Primary D step p) :
    contribution D node step limit pt =
      ∑ d ∈ crossed D step limit, (pieceAt D node step limit d).eval pt * D.stride d := by
  classical
  rw [contribution_eq_add, filter_false_of_mem fun d _ => h d, sum_empty, add_zero]

/-- A call adds its contribution, or it is refused because its limit is below the step. -/
theorem addTerm_cases (coords : Coordinates) (l : ℤ) :
    (∃ coords', addTerm D node step (some l) coords = .ok coords' ∧ step ≤ l ∧
      ∀ pt, sumAt D coords' pt = sumAt D coords pt + contribution D node step (some l) pt) ∨
    ∃ e, addTerm D node step (some l) coords = .error e ∧ l < step := by
  rw [addTerm, Option.filter_some]
  by_cases hlt : l < step
  · exact Or.inr ⟨_, by rw [if_pos (by simpa using hlt)], hlt⟩
  rw [if_neg (by simpa using hlt)]
  obtain ⟨hfound, hsum⟩ := foldl_addStep (D := D) node step (some l) coords D.n
  have hsub : crossed D step (some l) ⊆ range D.n := fun d hd =>
    mem_range.mpr (mem_wide.mp (mem_crossed.mp hd).1).1
  simp only [sum_ite_mem, inter_eq_right.mpr hsub] at hsum
  generalize (List.range D.n).foldl (addStep D node step (some l)) ⟨0, none, coords⟩ = st
    at hfound hsum
  dsimp only
  cases hp : st.primaryDim with
  | some p =>
    refine Or.inl ⟨_, rfl, not_lt.mp hlt, fun pt => ?_⟩
    rw [sumAt_add, hsum, contribution_eq (hfound.primary hp), add_assoc]
  | none =>
    refine Or.inl ⟨_, rfl, not_lt.mp hlt, fun pt => ?_⟩
    rw [hsum, contribution_of_not_primary fun p hprimary => ?_]
    have hmax := (hfound.max p hprimary.lt hprimary.size_ne hprimary.le).1
    rw [hfound.unset hp] at hmax
    exact not_lt.mpr hmax hprimary.pos

/-- The wide dimensions up to a limit, from some stride on, are the rungs of a ladder. -/
theorem rungs_of_closed (hD : Nested D) {rungs : Finset ℕ} (hwide : ∀ d ∈ rungs, d ∈ D.wide)
    (hclosed : ∀ d ∈ rungs, ∀ e ∈ D.wide, D.stride d < D.stride e →
      below (D.stride e) limit = true → e ∈ rungs)
    (hbelow : ∀ d ∈ rungs, ∀ e ∈ rungs, D.stride d < D.stride e →
      below (D.stride e) limit = true) :
    Ladder.Rungs rungs D.stride fun d => (nextStride D d).filter fun s => below s limit := by
  have hnext : ∀ d s, ((nextStride D d).filter fun s => below s limit) = some s →
      nextStride D d = some s ∧ below s limit = true :=
    fun d s h => Option.filter_eq_some_iff.mp h
  refine ⟨fun d hd => hD.pos d (hwide d hd),
    fun d hd e he => hD.inj d (hwide d hd) e (hwide e he), fun d hd s hs => ?_,
    fun d hd s hs => (nextStride_some (hnext d s hs).1).2.1, fun d hd s hs => ?_,
    fun d hd s hs f hf => (nextStride_some (hnext d s hs).1).2.2 f (hwide f hf),
    fun d hd hs f hf => ?_⟩
  · obtain ⟨⟨e, he, rfl⟩, hlt, hleast⟩ := nextStride_some (hnext d s hs).1
    exact hD.dvd d (hwide d hd) e he hlt hleast
  · obtain ⟨hs, hsbelow⟩ := hnext d s hs
    obtain ⟨⟨e, he, rfl⟩, hlt, -⟩ := nextStride_some hs
    exact ⟨e, hclosed d hd e he hlt hsbelow, rfl⟩
  · by_contra hlt
    rw [not_le] at hlt
    cases hn : nextStride D d with
    | none => exact absurd (nextStride_none hn f (hwide f hf)) (not_le.mpr hlt)
    | some s =>
      -- The next stride is not above that of `f`, so it is below the limit too.
      have hsf := (nextStride_some hn).2.2 f (hwide f hf) hlt
      have hsbelow : below s limit = true := by
        cases limit with
        | none => rfl
        | some l => exact decide_eq_true (hsf.trans_lt (of_decide_eq_true (hbelow d hd f hf hlt)))
      rw [hn, Option.filter_some, if_pos hsbelow] at hs
      exact nomatch hs

/-- The wide dimensions a call adds to are the rungs of a ladder. -/
theorem rungs_of_primary (hD : Nested D) {p : ℕ} (hp : Primary D step p) (hwide : p ∈ D.wide)
    (limit : Option ℤ) :
    Ladder.Rungs (insert p (crossed D step limit)) D.stride
      fun d => (nextStride D d).filter fun s => below s limit := by
  have hle : ∀ f ∈ D.wide, D.stride f ≤ step → D.stride f ≤ D.stride p := fun f hf hfle =>
    (hp.max f (mem_wide.mp hf).1 (by have := (mem_wide.mp hf).2; omega) hfle).1
  refine rungs_of_closed hD (fun d hd => ?_) (fun d hd e he hlt hbelow => ?_)
    fun d hd e he hlt => ?_
  · rcases mem_insert.mp hd with rfl | hd
    · exact hwide
    · exact (mem_crossed.mp hd).1
  · -- The dimension is beyond the step, or it would be the primary one.
    refine mem_insert_of_mem (mem_crossed.mpr ⟨he, ?_, hbelow⟩)
    rcases mem_insert.mp hd with rfl | hd
    · exact not_le.mp fun hstep => absurd (hle e he hstep) (not_le.mpr hlt)
    · exact (mem_crossed.mp hd).2.1.trans hlt
  · rcases mem_insert.mp he with rfl | he
    · rcases mem_insert.mp hd with rfl | hd
      · exact absurd hlt (lt_irrefl _)
      · exact absurd (hp.le.trans_lt (mem_crossed.mp hd).2.1) (not_lt.mpr hlt.le)
    · exact (mem_crossed.mp he).2.2

theorem pieceAt_eval (d : ℕ) : (pieceAt D node step limit d).eval pt =
    Ladder.digit D.stride (fun d => (nextStride D d).filter fun s => below s limit)
      (node.eval pt * step) d := by
  cases hn : (nextStride D d).filter fun s => below s limit with
  | none => simp only [Piece.eval, Ladder.digit, pieceAt, hn]
  | some s => simp only [Piece.eval, Ladder.digit, pieceAt, hn]

/-- A call spreads the value up to a remainder, if its step falls on a wide dimension. -/
theorem contribution_add_emod (hD : Nested D) {p : ℕ} (hp : Primary D step p)
    (hsize : D.size p ≠ 0) :
    contribution D node step limit pt + (node.eval pt * step) % D.stride p =
      (node.eval pt * step) := by
  have hwide : p ∈ D.wide := mem_wide.mpr ⟨hp.lt, by have := hp.size_ne; omega⟩
  have hnot : p ∉ crossed D step limit := fun h => not_primary_of_crossed h hp
  have hmin : ∀ f ∈ insert p (crossed D step limit), D.stride p ≤ D.stride f := by
    intro f hf
    rcases mem_insert.mp hf with rfl | hf
    · exact le_rfl
    · exact hp.le.trans (mem_crossed.mp hf).2.1.le
  have hsum := (rungs_of_primary hD hp hwide limit).sum_digit_above (node.eval pt * step)
    (mem_insert_self p _)
  rw [filter_true_of_mem hmin, sum_insert hnot] at hsum
  rw [contribution_eq hp, if_pos hwide, add_comm (∑ d ∈ crossed D step limit, _)]
  simp only [pieceAt_eval]
  exact hsum

/-- A call spreads the value exactly when its step falls on a wide dimension that divides it. -/
theorem contribution_exact (hD : Nested D) {p : ℕ} (hp : Primary D step p) (hsize : D.size p ≠ 0)
    (hdvd : D.stride p ∣ step) :
    contribution D node step limit pt = (node.eval pt * step) := by
  have hzero : node.eval pt * step % D.stride p = 0 :=
    Int.emod_eq_zero_of_dvd (Dvd.dvd.mul_left hdvd _)
  rw [← contribution_add_emod hD hp hsize, hzero, add_zero]

/-- A value that is not above the step reaches no crossed dimension. -/
theorem contribution_of_empty (hD : Nested D) {p : ℕ} (hp : Primary D step p)
    (hsize : D.size p = 0) (hval : node.eval pt ≤ 1) : contribution D node step limit pt = 0 := by
  have hwide : p ∉ D.wide := fun h => by have := (mem_wide.mp h).2; omega
  rw [contribution_eq hp, if_neg hwide, add_zero]
  refine sum_eq_zero fun d hd => ?_
  obtain ⟨hdw, hlt, -⟩ := mem_crossed.mp hd
  have hstep : 0 ≤ step := hp.pos.le.trans hp.le
  have hx₀ : 0 ≤ node.eval pt * step := mul_nonneg (Int.natCast_nonneg _) hstep
  have hx : node.eval pt * step < D.stride d :=
    (mul_le_of_le_one_left hstep (by exact_mod_cast hval)).trans_lt hlt
  rw [pieceAt_eval, Ladder.digit]
  cases hn : (nextStride D d).filter fun s => below s limit with
  | none => rw [Int.ediv_eq_zero_of_lt hx₀ hx, zero_mul]
  | some s =>
    have hs := (nextStride_some (Option.filter_eq_some_iff.mp hn).1).2.1
    have hpos := (hD.pos d hdw).trans hs
    dsimp only
    rw [Int.emod_eq_of_lt hx₀ (hx.trans hs), Int.ediv_eq_zero_of_lt hx₀ hx, zero_mul]

theorem contribution_of_zero (hval : (node.eval pt : ℤ) * step = 0) :
    contribution D node step limit pt = 0 := by
  refine sum_eq_zero fun d _ => ?_
  rw [pieceAt_eval, hval, Ladder.digit]
  cases (nextStride D d).filter fun s => below s limit with
  | none => simp
  | some s => simp

theorem contribution_of_eval_zero (hval : node.eval pt = 0) :
    contribution D node step limit pt = 0 :=
  contribution_of_zero (by rw [hval, Nat.cast_zero, zero_mul])

/-- The wide dimensions below a limit are the rungs of a ladder. -/
theorem rungs_below (hD : Nested D) (l : ℤ) :
    Ladder.Rungs (D.wide.filter fun d => D.stride d < l) D.stride
      fun d => (nextStride D d).filter fun s => below s (some l) := by
  refine rungs_of_closed hD (fun d hd => (mem_filter.mp hd).1) (fun d _ e he _ hbelow => ?_)
    fun d _ e he _ => ?_
  · exact mem_filter.mpr ⟨he, of_decide_eq_true hbelow⟩
  · exact decide_eq_true (mem_filter.mp he).2

/-- A negative step has no primary dimension. It spreads the value exactly, over every dimension
below the limit, if the limit leaves any. -/
theorem contribution_of_neg (hD : Nested D) (hs : step < 0) (l : ℤ) :
    contribution D node step (some l) pt = if 1 < l then node.eval pt * step else 0 := by
  have hcrossed : crossed D step (some l) = D.wide.filter fun d => D.stride d < l := by
    refine filter_congr fun d hd => ?_
    have hpos := hD.pos d hd
    simp only [below, decide_eq_true_eq]
    exact and_iff_right (by omega)
  rw [contribution_of_not_primary fun p hp => absurd (hp.pos.trans_le hp.le) (by omega), hcrossed]
  simp only [pieceAt_eval]
  obtain ⟨m, hm, hone⟩ := hD.one
  split_ifs with hlimit
  · refine (rungs_below hD l).sum_digit (mem_filter.mpr ⟨hm, by omega⟩) (fun f hf => ?_) ?_
    · have := hD.pos f (mem_filter.mp hf).1
      omega
    · rw [hone]
      exact one_dvd _
  · refine sum_eq_zero fun d hd => ?_
    obtain ⟨hd, hlt⟩ := mem_filter.mp hd
    have := hD.pos d hd
    omega

/-- A step falls on a dimension with elements, whose stride divides it. -/
def Lands (D : Dims) (step : ℤ) : Prop :=
  ∃ p, Primary D step p ∧ D.size p ≠ 0 ∧ D.stride p ∣ step

theorem contribution_of_lands (hD : Nested D) (h : Lands D step) :
    contribution D node step limit pt = node.eval pt * step := by
  obtain ⟨p, hp, hsize, hdvd⟩ := h
  exact contribution_exact hD hp hsize hdvd

/-- A positive step that reproduces itself lands. -/
theorem lands_of_contribution (hD : Nested D) (hpos : 0 < step) (hone : node.eval pt = 1)
    (h : contribution D node step limit pt = step) : Lands D step := by
  obtain ⟨p, hp⟩ := exists_primary hD hpos
  have hsize : D.size p ≠ 0 := by
    intro hzero
    rw [contribution_of_empty hD hp hzero hone.le] at h
    omega
  have hsum : contribution D node step limit pt + _ = _ := contribution_add_emod hD hp hsize
  rw [h, hone, Nat.cast_one, one_mul] at hsum
  exact ⟨p, hp, hsize, Int.dvd_of_emod_eq_zero (by omega)⟩

end Contribution

/-! ## The constant -/

/-- Peeling moves what it takes from the rest to the digits. -/
theorem peel_sum (st : ℤ × List (ℕ × ℤ)) (d : ℕ) :
    (peel D st d).1 + ((peel D st d).2.map fun x => x.2 * D.stride x.1).sum =
      st.1 + (st.2.map fun x => x.2 * D.stride x.1).sum := by
  unfold peel
  split_ifs
  · rfl
  · simp only [List.map_append, List.sum_append, List.map_cons, List.map_nil, List.sum_cons,
      List.sum_nil, add_zero]
    ring

theorem peel_nonneg {st : ℤ × List (ℕ × ℤ)} {d : ℕ} (hd : 0 < D.stride d) (h : 0 ≤ st.1) :
    0 ≤ (peel D st d).1 := by
  unfold peel
  split_ifs
  · exact h
  · have := Int.ediv_mul_le st.1 hd.ne'
    dsimp only
    omega

theorem peel_mem {st : ℤ × List (ℕ × ℤ)} {d : ℕ} (hd : d ∈ D.wide)
    (h : ∀ x ∈ st.2, x.1 ∈ D.wide) : ∀ x ∈ (peel D st d).2, x.1 ∈ D.wide := by
  unfold peel
  split_ifs
  · exact h
  · intro x hx
    rcases List.mem_append.mp hx with hx | hx
    · exact h x hx
    · exact List.mem_singleton.mp hx ▸ hd

/-- The constant is peeled completely, onto wide dimensions. -/
theorem decomposeConstantOffset_eq (hD : Nested D) (offset : ℕ) :
    ∃ digits, decomposeConstantOffset D offset = some digits ∧
      (∀ x ∈ digits, x.1 ∈ D.wide) ∧ (digits.map fun x => x.2 * D.stride x.1).sum = offset := by
  set dims := ((List.range D.n).filter fun d => 1 < D.size d ∧ 0 < D.stride d).insertionSort
    fun d e => D.stride e ≤ D.stride d with hdims
  have hmem : ∀ d, d ∈ dims ↔ d ∈ D.wide := by
    intro d
    rw [hdims, List.mem_insertionSort, List.mem_filter, List.mem_range, mem_wide,
      decide_eq_true_iff]
    exact ⟨fun h => ⟨h.1, h.2.1⟩, fun h => ⟨h.1, h.2, hD.pos d (mem_wide.mpr h)⟩⟩
  set r := dims.foldl (peel D) ((offset : ℤ), []) with hr
  have hinv : 0 ≤ r.1 ∧ (∀ x ∈ r.2, x.1 ∈ D.wide) ∧
      r.1 + (r.2.map fun x => x.2 * D.stride x.1).sum = offset := by
    refine List.foldlRecOn (motive := fun st : ℤ × List (ℕ × ℤ) => 0 ≤ st.1 ∧
      (∀ x ∈ st.2, x.1 ∈ D.wide) ∧ st.1 + (st.2.map fun x => x.2 * D.stride x.1).sum = offset)
      dims (peel D) ⟨Int.natCast_nonneg _, by simp, by simp⟩ fun st hst d hd => ?_
    have hwide := (hmem d).mp hd
    exact ⟨peel_nonneg (hD.pos d hwide) hst.1, peel_mem hwide hst.2.1,
      (peel_sum st d).trans hst.2.2⟩
  have hnonpos : r.1 ≤ 0 := by
    obtain ⟨one, hone, hstride⟩ := hD.one
    refine Loops.foldl_of_mem (P := fun st : ℤ × List (ℕ × ℤ) => st.1 ≤ 0) ((hmem one).mpr hone)
      (fun st => ?_) (fun d hd st hst => ?_) _
    · unfold peel
      rw [hstride]
      split_ifs with hlt
      · omega
      · simp
    · have hpos := hD.pos d ((hmem d).mp hd)
      unfold peel
      rwa [if_pos (by omega)]
  have hzero : r.1 = 0 := le_antisymm hnonpos hinv.1
  refine ⟨r.2, ?_, hinv.2.1, by rw [← hinv.2.2, hzero, zero_add]⟩
  simp only [decomposeConstantOffset, ← hdims, ← hr]
  rw [if_pos hzero]

theorem sumAt_addDigits (digits : List (ℕ × ℤ)) (hdigits : ∀ x ∈ digits, x.1 ∈ D.wide)
    (coords : Coordinates) (pt : ℕ → ℕ) :
    sumAt D (addDigits coords digits) pt =
      sumAt D coords pt + (digits.map fun x => x.2 * D.stride x.1).sum := by
  induction digits generalizing coords with
  | nil => simp [addDigits]
  | cons x digits ih =>
    have hone : sumAt D (Function.update coords x.1
        { coords x.1 with const := (coords x.1).const + x.2 }) pt =
          sumAt D coords pt + x.2 * D.stride x.1 := by
      have heval : ∀ d, (Function.update coords x.1
          { coords x.1 with const := (coords x.1).const + x.2 } d).eval pt =
            (coords d).eval pt + if d = x.1 then x.2 else 0 := by
        intro d
        by_cases hd : d = x.1
        · subst hd
          rw [Function.update_self, if_pos rfl]
          simp [Coordinate.eval, add_right_comm]
        · rw [Function.update_of_ne hd, if_neg hd, add_zero]
      unfold sumAt
      simp only [heval, add_mul, sum_add_distrib, ite_mul, zero_mul, sum_ite_eq',
        if_pos (hdigits x List.mem_cons_self)]
    have hrest := ih (fun y hy => hdigits y (List.mem_cons_of_mem x hy)) (Function.update coords x.1
      { coords x.1 with const := (coords x.1).const + x.2 })
    rw [hone] at hrest
    rw [List.map_cons, List.sum_cons, ← add_assoc]
    exact hrest

/-- The coordinates of the constant add up to it. -/
theorem exists_offsetCoordinates (hD : Nested D) (offset : ℕ) :
    ∃ coords, offsetCoordinates D offset = .ok coords ∧ ∀ pt, sumAt D coords pt = offset := by
  have hnone : ∀ pt, sumAt D (fun _ => {}) pt = 0 := fun pt => by simp [sumAt, Coordinate.eval]
  unfold offsetCoordinates
  split_ifs with hpos
  · obtain ⟨digits, hdigits, hwide, hsum⟩ := decomposeConstantOffset_eq hD offset
    rw [hdigits]
    exact ⟨_, rfl, fun pt => by rw [sumAt_addDigits digits hwide, hnone, hsum, zero_add]⟩
  · exact ⟨_, rfl, fun pt => by rw [hnone]; omega⟩

/-! ## Chains of digits -/

/-- Digits from low to high, each starting where the one before ends, the last at `range`. -/
def IsDigitChain : ℕ → List Digit → ℕ → Prop
  | start, [], range => start = range
  | start, d :: low, range => d.divisor = start ∧ IsDigitChain (start * d.modulus) low range

/-- A complete chain of digits, in any order. `Mod(v, 1)` is zero and not a digit. -/
structure DigitChain (range : ℕ) (digits : List Digit) : Prop where
  modulus : ∀ d ∈ digits, 1 < d.modulus
  chain : ∃ low : List Digit, low.Perm digits ∧ IsDigitChain 1 low range

theorem IsDigitChain.dvd {start range : ℕ} {low : List Digit} (h : IsDigitChain start low range) :
    start ∣ range := by
  induction low generalizing start with
  | nil => exact dvd_of_eq h
  | cons d low ih => exact (Dvd.intro _ rfl).trans (ih h.2)

/-- The digits of a chain start one after the other. -/
theorem IsDigitChain.strict {start range : ℕ} {low : List Digit} (hstart : 0 < start)
    (hmod : ∀ d ∈ low, 1 < d.modulus) (h : IsDigitChain start low range) :
    (low.Pairwise fun a b => a.divisor < b.divisor) ∧ ∀ d ∈ low, start ≤ d.divisor := by
  induction low generalizing start with
  | nil => simp
  | cons d low ih =>
    obtain ⟨rfl, hlow⟩ := h
    have hd := hmod d List.mem_cons_self
    have hlt : d.divisor < d.divisor * d.modulus := lt_mul_of_one_lt_right hstart hd
    obtain ⟨hpair, hmem⟩ :=
      ih (hstart.trans hlt) (fun e he => hmod e (List.mem_cons_of_mem d he)) hlow
    refine ⟨List.pairwise_cons.mpr ⟨fun e he => hlt.trans_le (hmem e he), hpair⟩, ?_⟩
    exact List.forall_mem_cons.mpr ⟨le_rfl, fun e he => hlt.le.trans (hmem e he)⟩

/-- Every digit of a chain ends where the later ones, and the range, are multiples. -/
theorem IsDigitChain.pairwise {start range : ℕ} {low : List Digit}
    (h : IsDigitChain start low range) :
    (low.Pairwise fun a b => a.divisor * a.modulus ∣ b.divisor) ∧
      ∀ d ∈ low, start ∣ d.divisor ∧ d.divisor * d.modulus ∣ range := by
  induction low generalizing start with
  | nil => simp
  | cons d low ih =>
    obtain ⟨rfl, hlow⟩ := h
    obtain ⟨hpair, hmem⟩ := ih hlow
    refine ⟨List.pairwise_cons.mpr ⟨fun e he => (hmem e he).1, hpair⟩, fun e he => ?_⟩
    rcases List.mem_cons.mp he with rfl | he
    · exact ⟨dvd_rfl, hlow.dvd⟩
    · exact ⟨(Dvd.intro _ rfl).trans (hmem e he).1, (hmem e he).2⟩

/-- Where one digit of a chain starts, it is one and all others are zero. -/
theorem DigitChain.eval_divisor {range : ℕ} {digits : List Digit} (h : DigitChain range digits)
    (hrange : 0 < range) {d : Digit} (hd : d ∈ digits) :
    d.divisor < range ∧ d.divisor / d.divisor % d.modulus = 1 ∧
      ∀ e ∈ digits, e ≠ d → d.divisor / e.divisor % e.modulus = 0 := by
  obtain ⟨low, hperm, hchain⟩ := h.chain
  obtain ⟨hpair, hmem⟩ := hchain.pairwise
  have hmod := h.modulus d hd
  have hstart := (hchain.strict Nat.one_pos fun e he => h.modulus e (hperm.mem_iff.mp he)).2
  have hpos : ∀ e ∈ digits, 0 < e.divisor := fun e he => hstart e (hperm.mem_iff.mpr he)
  refine ⟨?_, ?_, fun e he hne => ?_⟩
  · refine lt_of_lt_of_le ?_ (Nat.le_of_dvd hrange (hmem d (hperm.mem_iff.mpr hd)).2)
    exact lt_mul_of_one_lt_right (hpos d hd) hmod
  · rw [Nat.div_self (hpos d hd), Nat.mod_eq_of_lt hmod]
  · have hsymm : Std.Symm fun a b : Digit =>
        a.divisor * a.modulus ∣ b.divisor ∨ b.divisor * b.modulus ∣ a.divisor :=
      ⟨fun a b hab => hab.symm⟩
    have hor : low.Pairwise fun a b => a.divisor * a.modulus ∣ b.divisor ∨
        b.divisor * b.modulus ∣ a.divisor := hpair.imp fun hab => Or.inl hab
    rcases hor.forall (hperm.mem_iff.mpr he) (hperm.mem_iff.mpr hd) hne with hed | hde
    · obtain ⟨q, hq⟩ := hed
      rw [hq, Nat.mul_assoc, Nat.mul_div_cancel_left _ (hpos e he), Nat.mul_mod_right]
    · have hle := Nat.le_of_dvd (hpos e he) hde
      have hlt : d.divisor < e.divisor :=
        lt_of_lt_of_le (lt_mul_of_one_lt_right (hpos d hd) hmod) hle
      rw [Nat.div_eq_of_lt hlt, Nat.zero_mod]

theorem mixedRadixDigits_perm {v : LoopVar} {digits : List Digit}
    (h : mixedRadixDigits v = some digits) : digits.Perm v.term.mods := by
  simp only [mixedRadixDigits] at h
  split_ifs at h
  exact Option.some.inj h ▸ List.perm_insertionSort _ _

/-! ## Points -/

/-- Where only variable `v` is not zero, the other terms are. -/
theorem sum_zipIdx_single {α : Type} {vars : List α} {f : α × ℕ → ℤ} {v : α × ℕ}
    (hv : v ∈ vars.zipIdx) (hf : ∀ w ∈ vars.zipIdx, w.2 ≠ v.2 → f w = 0) :
    (vars.zipIdx.map f).sum = f v := by
  refine Lists.sum_map_single (k := Prod.snd) ?_ hv hf
  rw [List.zipIdx_map_snd]
  exact List.nodup_range'

end Views

end TorchSpyre
