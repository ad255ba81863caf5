import Mathlib
import TorchSpyre.Annealer.Problem

/-!
# Generated divisions

`OpSplitSpace` in `work_division.py` is an operation's legal divisions as a space to move in. A
state of the space is a factor for every axis and a tiling. `division` turns it into a
`CoreDivision`, which keeps the factors above 1 only, and `splits` reads the factors back. Which
splits are legal under a tiling, and the legal factors of an axis, are functions here.

`_GeneratedDivisions` in `sa_cooptimizer.py` draws a buffer's divisions from its space
(`toSplitSpace`), and a residency edge constructs the division on one end from that on the other
(`inverse`). Whatever comes from either is the division of a complete split map (`Member`). For
those, a new tiling leaves the splits as they are (`retiled_eq`).
-/

open List

namespace TorchSpyre

namespace Annealer

/-- `OpSplitSpace` : the axes of an operation, those that slice its output, and what is legal.
`drawTiling` and `shuffle` are the draws of an anchor that do not depend on the splits. -/
structure OpSplitSpace where
  axes : List String
  nodup_axes : axes.Nodup
  outputAxes : List String
  factorDomain : String → TileSpec → List ℕ
  admitsTiling : TileSpec → Bool
  admits : List (String × ℕ) → TileSpec → Bool
  tilingOptions : TileSpec → List TileSpec
  canTile : Bool
  drawTiling : Rng → TileSpec × Rng
  shuffle : Rng → List String × Rng

/-- `{**splits, axis: factor}`, for an axis that is there. -/
def setFactor (splits : List (String × ℕ)) (axis : String) (factor : ℕ) : List (String × ℕ) :=
  splits.map fun s => if s.1 = axis then (axis, factor) else s

theorem map_fst_setFactor (splits : List (String × ℕ)) (axis : String) (factor : ℕ) :
    (setFactor splits axis factor).map Prod.fst = splits.map Prod.fst := by
  unfold setFactor
  rw [map_map]
  refine map_congr_left fun s _ => ?_
  by_cases h : s.1 = axis <;> simp [h]

/-- One side of a residency edge : the inversion of a view under a tiling, as the factor of each
axis, and the check of the pair that follows. -/
structure ViewInverse where
  hasPartialRead : Bool
  invert : CoreDivision → TileSpec → Option (String → ℕ)
  compatible : CoreDivision → CoreDivision → Bool

namespace OpSplitSpace

variable (s : OpSplitSpace)

/-- `splits` : a factor for every axis. -/
def splits (d : CoreDivision) : List (String × ℕ) :=
  s.axes.map fun axis => (axis, d.factor axis)

/-- `division` : the factors above 1, and the tiling. -/
def division (splits : List (String × ℕ)) (tiling : TileSpec) : CoreDivision :=
  let sparse := (splits.filter fun x => 1 < x.2).insertionSort fun a b => a.1 ≤ b.1
  { splits := sparse
    reductionSyms := (sparse.map Prod.fst).filter fun axis => axis ∉ s.outputAxes
    tiling := tiling }

/-- `neighbours` : another factor on one axis, then another tiling. -/
def neighbours (d : CoreDivision) : List CoreDivision :=
  (s.axes.flatMap fun axis => (s.factorDomain axis d.tiling).filterMap fun factor =>
    let candidate := setFactor (s.splits d) axis factor
    if factor ≠ d.factor axis ∧ s.admits candidate d.tiling then
      some (s.division candidate d.tiling)
    else none) ++
  (s.tilingOptions d.tiling).filterMap fun spec =>
    if s.admits (s.splits d) spec then some (s.division (s.splits d) spec) else none

/-- `retiled` : the splits of `d` under another tiling, if they are legal there. -/
def retiled (d : CoreDivision) (tiling : TileSpec) : Option CoreDivision :=
  if s.admits (s.splits d) tiling then some (s.division (s.splits d) tiling) else none

/-- Where an anchor starts from. Splits that the drawn tiling does not take are dropped, or else
the tiling is. -/
def anchorStart (d : CoreDivision) (tiling : TileSpec) : Option (List (String × ℕ) × TileSpec) :=
  let floor := s.axes.map fun axis => (axis, 1)
  if s.admits (s.splits d) tiling then some (s.splits d, tiling)
  else if s.admits floor tiling then some (floor, tiling)
  else if s.admits (s.splits d) {} then some (s.splits d, {})
  else none

/-- The loop of `anchor` : a new factor for each axis, kept if it is legal. -/
def redraw (tiling : TileSpec) :
    List String → List (String × ℕ) → Rng → List (String × ℕ) × Rng
  | [], splits, rng => (splits, rng)
  | axis :: rest, splits, rng =>
    let domain := s.factorDomain axis {}
    let candidate := setFactor splits axis (domain.getD (rng.next.1 % domain.length) 1)
    redraw tiling rest (if s.admits candidate tiling then candidate else splits) rng.next.2

/-- `anchor` : a splitting division, far from `d`. -/
def anchor (d : CoreDivision) (rng : Rng) : Option CoreDivision × Rng :=
  let drawn := s.drawTiling rng
  match s.anchorStart d drawn.1 with
  | none => (none, drawn.2)
  | some (splits, tiling) =>
    let order := s.shuffle drawn.2
    let redrawn := s.redraw tiling order.1 splits order.2
    let division := s.division redrawn.1 tiling
    (if division.outputPartition ≤ 1 then none else some division, redrawn.2)

/-- `_GeneratedDivisions`. -/
def toSplitSpace : SplitSpace where
  neighbours := s.neighbours
  retiled := s.retiled
  anchor := s.anchor
  canMove := s.axes.any fun axis => 1 < (s.factorDomain axis {}).length
  canSplit := s.axes.any fun axis =>
    decide (axis ∈ s.outputAxes) && (s.factorDomain axis {}).any fun factor => 1 < factor
  canTile := s.canTile

/-- `_inverse` : the division on this side of an edge whose other side has `other`. The tiling of
`other` is tried first, where this side can take it. -/
def inverse (v : ViewInverse) (other : CoreDivision) : Option CoreDivision :=
  if v.hasPartialRead && !other.tiling.isUntiled then none
  else
    let wanted := if s.admitsTiling other.tiling && !v.hasPartialRead then other.tiling else {}
    let attempts := if wanted.isUntiled then [wanted] else [wanted, {}]
    attempts.findSome? fun tiling => (v.invert other tiling).bind fun factor =>
      let division := s.division (s.axes.map fun axis => (axis, factor axis)) tiling
      if v.compatible other division then some division else none

/-! ## What the space gives -/

/-- The division of a split map over the axes. -/
def Member (d : CoreDivision) : Prop :=
  ∃ splits tiling, splits.map Prod.fst = s.axes ∧ d = s.division splits tiling

variable {s}

@[simp] theorem map_fst_splits (d : CoreDivision) : (s.splits d).map Prod.fst = s.axes := by
  simp [splits, Function.comp_def]

variable {d d' : CoreDivision} {tiling : TileSpec}

theorem map_fst_anchorStart {start : List (String × ℕ) × TileSpec}
    (h : s.anchorStart d tiling = some start) :
    start.1.map Prod.fst = s.axes := by
  unfold anchorStart at h
  dsimp only at h
  split_ifs at h <;> obtain rfl := Option.some.inj h
  · exact map_fst_splits d
  · simp [Function.comp_def]
  · exact map_fst_splits d

theorem map_fst_redraw (tiling : TileSpec) (order : List String) (splits : List (String × ℕ))
    (rng : Rng) : (s.redraw tiling order splits rng).1.map Prod.fst = splits.map Prod.fst := by
  induction order generalizing splits rng with
  | nil => rfl
  | cons axis rest ih =>
    rw [redraw, ih]
    split_ifs
    · exact map_fst_setFactor _ _ _
    · rfl

theorem member_anchor {rng : Rng} (h : (s.anchor d rng).1 = some d') :
    s.Member d' := by
  unfold anchor at h
  cases hstart : s.anchorStart d (s.drawTiling rng).1 with
  | none => simp [hstart] at h
  | some start =>
    simp only [hstart] at h
    split_ifs at h
    obtain rfl := Option.some.inj h
    exact ⟨_, _, (map_fst_redraw _ _ _ _).trans (map_fst_anchorStart hstart), rfl⟩

theorem member_inverse {v : ViewInverse} {other : CoreDivision} (h : s.inverse v other = some d) :
    s.Member d := by
  unfold inverse at h
  by_cases hpartial : (v.hasPartialRead && !other.tiling.isUntiled) = true
  · rw [if_pos hpartial] at h
    exact nomatch h
  · rw [if_neg hpartial] at h
    obtain ⟨tiling, -, h⟩ := exists_of_findSome?_eq_some h
    obtain ⟨factor, -, h⟩ := Option.bind_eq_some_iff.1 h
    dsimp only at h
    split_ifs at h
    obtain rfl := Option.some.inj h
    exact ⟨_, tiling, by simp [Function.comp_def], rfl⟩

/-! ## Another tiling of the same splits -/

section Factors

variable {splits : List (String × ℕ)} (hnodup : (splits.map Prod.fst).Nodup) (tiling : TileSpec)

include hnodup

variable {x : String × ℕ}

/-- A factor above 1 is read back. -/
theorem factor_division (hx : x ∈ splits) (h : 1 < x.2) :
    (s.division splits tiling).factor x.1 = x.2 := by
  have hmem : x ∈ (s.division splits tiling).splits :=
    (mem_insertionSort _).2 (mem_filter.2 ⟨hx, by simpa using h⟩)
  unfold CoreDivision.factor
  cases hfind : (s.division splits tiling).splits.find? fun y => y.1 = x.1 with
  | none => exact absurd (find?_eq_none.1 hfind x hmem) (by simp)
  | some y =>
    have hy : y ∈ splits :=
      (mem_filter.1 ((mem_insertionSort _).1 (mem_of_find?_eq_some hfind))).1
    have hkey : y.1 = x.1 := by simpa using find?_some hfind
    rw [inj_on_of_nodup_map hnodup hy hx hkey]
    rfl

/-- An axis without one is not split. -/
theorem factor_division_le (hx : x ∈ splits) (h : ¬ 1 < x.2) :
    (s.division splits tiling).factor x.1 = 1 := by
  unfold CoreDivision.factor
  cases hfind : (s.division splits tiling).splits.find? fun y => y.1 = x.1 with
  | none => rfl
  | some y =>
    have hy := mem_filter.1 ((mem_insertionSort _).1 (mem_of_find?_eq_some hfind))
    have hkey : y.1 = x.1 := by simpa using find?_some hfind
    obtain rfl := inj_on_of_nodup_map hnodup hy.1 hx hkey
    exact absurd (by simpa using hy.2) h

/-- The splits read back have the same factors above 1. -/
theorem filter_splits_division (haxes : splits.map Prod.fst = s.axes) :
    (s.splits (s.division splits tiling)).filter (fun x => 1 < x.2) =
      splits.filter fun x => 1 < x.2 := by
  unfold OpSplitSpace.splits
  rw [← haxes, map_map, filter_map]
  have hsame : splits.filter ((fun x : String × ℕ => decide (1 < x.2)) ∘
      ((fun axis => (axis, (s.division splits tiling).factor axis)) ∘ Prod.fst)) =
        splits.filter fun x => 1 < x.2 := by
    refine filter_congr fun x hx => decide_eq_decide.2 ?_
    by_cases h : 1 < x.2
    · simp [factor_division hnodup tiling hx h]
    · simp [factor_division_le hnodup tiling hx h, h]
  rw [hsame]
  refine (map_congr_left fun x hx => ?_).trans (map_id _)
  obtain ⟨hx, h⟩ := mem_filter.1 hx
  exact Prod.ext rfl (factor_division hnodup tiling hx (by simpa using h))

end Factors

/-- A new tiling keeps the splits of a division of the space. -/
theorem division_splits (hd : s.Member d) (tiling : TileSpec) :
    s.division (s.splits d) tiling = { d with tiling := tiling } := by
  obtain ⟨splits, tiling', haxes, rfl⟩ := hd
  have hfilter := filter_splits_division (haxes ▸ s.nodup_axes) tiling' haxes
  unfold division at hfilter ⊢
  rw [hfilter]

theorem retiled_eq (hd : s.Member d) (h : s.retiled d tiling = some d') :
    d' = { d with tiling := tiling } := by
  unfold retiled at h
  split_ifs at h
  exact (Option.some.inj h).symm.trans (division_splits hd tiling)

end OpSplitSpace

end Annealer

end TorchSpyre
