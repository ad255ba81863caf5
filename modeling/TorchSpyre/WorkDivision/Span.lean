import Mathlib
import TorchSpyre.Checked
import TorchSpyre.Choices
import TorchSpyre.WorkDivision.Split

/-!
# Spans of a core

The hardware limits the bytes of a tensor that one core addresses. `get_per_core_span` estimates
them from the outermost device dimension a core moves in : the number of indices the first slice
takes there, times the size of what lies inside. `must_split_vars` goes over the tensors and commits
split factors until each estimate is within the limit.

When a factor grows, the slice shrinks. The estimate may then jump to an inner dimension, which is
no larger than one index of the outer one (`spanFrom_le_prod`), so it never increases
(`spanFrom_anti`). A committed factor is only replaced by one that is at least as large
(`commit_le`), though not by a multiple, so what was within the limit stays within it. -/

open List

namespace TorchSpyre

namespace WorkDivision

open Checked

variable {V : Type} [DecidableEq V]

/-! ## The estimate -/

/-- A device coordinate : a constant and a term for each of its variables. -/
structure Coordinate (V : Type) where
  constant : ℤ
  symbols : List V
  term : V → ℤ → ℤ
  nodup : symbols.Nodup

namespace Coordinate

/-- The value of a coordinate at a point. -/
def value (c : Coordinate V) (x : V → ℤ) : ℤ :=
  c.constant + (c.symbols.map fun v => c.term v (x v)).sum

/-- The coordinate with all variables but one at zero. -/
def alone (c : Coordinate V) (v : V) (x : ℤ) : ℤ :=
  c.value (Function.update 0 v x)

/-- `per_core_size`, for slices of `range v` indices. -/
def perCoreSize (c : Coordinate V) (range : V → ℕ) : ℤ :=
  (c.symbols.map fun v => c.alone v (range v - 1)).sum -
    (c.symbols.map fun v => c.alone v 0).sum + 1

theorem alone_sub (c : Coordinate V) {v : V} (hv : v ∈ c.symbols) (x : ℤ) :
    c.alone v x - c.alone v 0 = c.term v x - c.term v 0 := by
  have hsum : ∀ y, (c.symbols.map fun w => c.term w (Function.update (0 : V → ℤ) v y w)).sum =
      c.term v y + ((c.symbols.erase v).map fun w => c.term w 0).sum := by
    intro y
    rw [← sum_map_erase _ hv, Function.update_self]
    refine congrArg _ (congrArg _ (map_congr_left fun w hw => ?_))
    have hne : w ≠ v := ((c.nodup.mem_erase_iff).1 hw).1
    rw [Function.update_of_ne hne, Pi.zero_apply]
  rw [alone, alone, value, value, hsum, hsum]
  ring

theorem perCoreSize_eq (c : Coordinate V) (range : V → ℕ) :
    c.perCoreSize range =
      (c.symbols.map fun v => c.term v (range v - 1) - c.term v 0).sum + 1 := by
  have hsplit : (c.symbols.map fun v => c.alone v (range v - 1)) = c.symbols.map fun v =>
      (c.term v (range v - 1) - c.term v 0) + c.alone v 0 :=
    map_congr_left fun v hv => by rw [← c.alone_sub hv, sub_add_cancel]
  rw [perCoreSize, hsplit, sum_map_add]
  ring

end Coordinate

/-- A `TensorDep` : its device coordinates with the device sizes, the last for the stick. -/
structure TensorDep (V : Type) where
  name : String
  dims : List (Coordinate V × ℕ)
  itemsize : ℕ

/-- The indices of the first slice of a variable. -/
def sliceSize (size : V → ℕ) (splits : Splits V) (v : V) : ℕ :=
  size v / splits.factor v

/-- The loop of `get_per_core_span` from a dimension on. -/
def spanFrom (itemsize : ℕ) (range : V → ℕ) : List (Coordinate V × ℕ) → ℤ
  | [] => itemsize
  | (coord, _) :: inner =>
    if inner = [] then itemsize
    else if coord.symbols = [] then spanFrom itemsize range inner
    else if 1 < coord.perCoreSize range then
      coord.perCoreSize range * (inner.map Prod.snd).prod * itemsize
    else spanFrom itemsize range inner

/-- `get_per_core_span`. -/
def getPerCoreSpan (size : V → ℕ) (td : TensorDep V) (splits : Splits V) : ℤ :=
  spanFrom td.itemsize (sliceSize size splits) td.dims

/-- The coordinate does not decrease in any variable over its range. -/
def Coordinate.NonDecreasing (size : V → ℕ) (c : Coordinate V) : Prop :=
  ∀ v ∈ c.symbols, MonotoneOn (c.term v) (Set.Ico 0 (size v : ℤ))

/-- The coordinate stays inside a device size. -/
def Coordinate.Inside (size : V → ℕ) (c : Coordinate V) (deviceSize : ℕ) : Prop :=
  ∀ x : V → ℤ, (∀ v, 0 ≤ x v ∧ x v < size v) → 0 ≤ c.value x ∧ c.value x < deviceSize

/-- The slices of larger factors are within those of smaller ones, as the coordinate sees them. A
factor above the extent leaves no index, and the source then looks at index `-1`. -/
structure Coordinate.Shrinks (size : V → ℕ) (c : Coordinate V) (range range' : V → ℕ) : Prop where
  le : ∀ v, range' v ≤ range v
  bound : ∀ v, range v ≤ size v
  nonempty : ∀ v ∈ c.symbols, 0 < range' v ∨ c.term v (-1) ≤ c.term v 0

variable {c : Coordinate V} {range size : V → ℕ}

theorem Coordinate.perCoreSize_anti {range' : V → ℕ} (hc : c.NonDecreasing size)
    (h : c.Shrinks size range range') :
    c.perCoreSize range' ≤ c.perCoreSize range := by
  rw [perCoreSize_eq, perCoreSize_eq]
  refine add_le_add_left (sum_le_sum fun v hv => sub_le_sub_right ?_ _) 1
  have hle := h.le v
  have hbound := h.bound v
  have hmono : 0 < range' v → c.term v (range' v - 1) ≤ c.term v (range v - 1) := fun hpos =>
    hc v hv ⟨by omega, by omega⟩ ⟨by omega, by omega⟩ (by omega)
  rcases Nat.eq_zero_or_pos (range' v) with hzero | hpos
  · have hneg := (h.nonempty v hv).resolve_left (by omega)
    rcases Nat.eq_zero_or_pos (range v) with hzero' | hpos'
    · rw [hzero, hzero']
    · have hup : c.term v 0 ≤ c.term v (range v - 1) :=
        hc v hv ⟨le_rfl, by omega⟩ ⟨by omega, by omega⟩ (by omega)
      rw [hzero]
      exact hneg.trans hup
  · exact hmono hpos

theorem Coordinate.perCoreSize_le (hsize : ∀ v, 0 < size v) {deviceSize : ℕ}
    (hc : c.NonDecreasing size) (hin : c.Inside size deviceSize) (h : c.Shrinks size size range) :
    c.perCoreSize range ≤ deviceSize := by
  refine (perCoreSize_anti hc h).trans ?_
  have hfirst := hin 0 fun v => ⟨le_rfl, by simpa using hsize v⟩
  have hlast := hin (fun v => size v - 1) fun v => ⟨by have := hsize v; omega, by omega⟩
  have hdiff : c.value (fun v => size v - 1) - c.value 0 =
      (c.symbols.map fun v => c.term v (size v - 1) - c.term v 0).sum := by
    have hsplit : (c.symbols.map fun v => c.term v ((size v : ℤ) - 1)) = c.symbols.map fun v =>
        (c.term v (size v - 1) - c.term v 0) + c.term v 0 :=
      map_congr_left fun v _ => by rw [sub_add_cancel]
    rw [value, value, hsplit, sum_map_add]
    simp
  rw [perCoreSize_eq, ← hdiff]
  omega

/-- A tensor whose coordinates do not decrease and stay inside the device sizes. -/
structure TensorDep.Regular (size : V → ℕ) (td : TensorDep V) : Prop where
  nonDecreasing : ∀ dim ∈ td.dims, dim.1.NonDecreasing size
  inside : ∀ dim ∈ td.dims, dim.1.Inside size dim.2

omit [DecidableEq V] in
theorem one_le_of_inside (hsize : ∀ v, 0 < size v) {coord : Coordinate V} {n : ℕ}
    (hin : coord.Inside size n) : 1 ≤ n := by
  have hfirst := hin 0 fun v => ⟨le_rfl, by simpa using hsize v⟩
  omega

section Estimate

variable {size : V → ℕ} {range range' : V → ℕ} {itemsize : ℕ}

/-- What lies inside a dimension is no larger than one index of it. -/
theorem spanFrom_le_prod (hsize : ∀ v, 0 < size v) : ∀ {dims : List (Coordinate V × ℕ)},
    (∀ dim ∈ dims, dim.1.NonDecreasing size ∧ dim.1.Inside size dim.2 ∧
      dim.1.Shrinks size size range) →
    spanFrom itemsize range dims ≤ (dims.map Prod.snd).prod * itemsize
  | [], _ => by simp [spanFrom]
  | (coord, n) :: inner, h => by
    obtain ⟨⟨hmono, hin, hshrinks⟩, hrest⟩ := forall_mem_cons.1 h
    have hn : 1 ≤ n := one_le_of_inside hsize hin
    have hprod : 1 ≤ (inner.map Prod.snd).prod :=
      one_le_prod fun m hm => by
        obtain ⟨dim, hdim, rfl⟩ := mem_map.1 hm
        exact one_le_of_inside hsize (hrest dim hdim).2.1
    have ih := spanFrom_le_prod hsize hrest
    have hstep : spanFrom itemsize range inner ≤
        (((coord, n) :: inner).map Prod.snd).prod * itemsize := by
      refine ih.trans ?_
      rw [map_cons, prod_cons]
      exact_mod_cast Nat.mul_le_mul_right itemsize (Nat.le_mul_of_pos_left _ hn)
    rw [spanFrom]
    split_ifs with hlast hnone hone
    · rw [map_cons, prod_cons]
      exact_mod_cast Nat.le_mul_of_pos_left itemsize (Nat.mul_pos hn hprod)
    · exact hstep
    · have hle := Coordinate.perCoreSize_le hsize hmono hin hshrinks
      rw [map_cons, prod_cons, Nat.cast_mul]
      exact mul_le_mul_of_nonneg_right (mul_le_mul_of_nonneg_right hle (by positivity))
        (by positivity)
    · exact hstep

/-- The estimate does not increase when the slices shrink. -/
theorem spanFrom_anti (hsize : ∀ v, 0 < size v) : ∀ {dims : List (Coordinate V × ℕ)},
    (∀ dim ∈ dims, dim.1.NonDecreasing size ∧ dim.1.Inside size dim.2 ∧
      dim.1.Shrinks size range range') →
    spanFrom itemsize range' dims ≤ spanFrom itemsize range dims
  | [], _ => le_rfl
  | (coord, n) :: inner, h => by
    obtain ⟨⟨hmono, hin, hshrinks⟩, hrest⟩ := forall_mem_cons.1 h
    have ih := spanFrom_anti hsize hrest
    have hcoord := Coordinate.perCoreSize_anti hmono hshrinks
    rw [spanFrom, spanFrom]
    split_ifs with hlast hnone hone hone' hone'
    · exact le_rfl
    · exact ih
    · gcongr
    · exact absurd (lt_of_lt_of_le hone hcoord) hone'
    · have hprod : spanFrom itemsize range' inner ≤ (inner.map Prod.snd).prod * itemsize :=
        spanFrom_le_prod hsize fun dim hdim => by
          obtain ⟨hmono, hin, hs⟩ := hrest dim hdim
          exact ⟨hmono, hin, fun v => (hs.le v).trans (hs.bound v), fun _ => le_rfl, hs.nonempty⟩
      refine hprod.trans ?_
      rw [mul_assoc]
      exact le_mul_of_one_le_left (by positivity) (le_of_lt hone')
    · exact ih

end Estimate

/-! ## The search -/

/-- `MAX_SPAN_BYTES`. -/
def maxSpanBytes : ℤ := 256 * 1024 * 1024

/-- What `must_split_vars` reads besides the tensors. A granularity divides its maximal size, and
the adjusted space counts sticks where the original one counts elements. -/
structure SpanProblem (V : Type) [BEq V] where
  itSpaceOrig : List (V × ℕ)
  itSpaceAdjusted : List (V × ℕ)
  stickVars : List V
  maxCores : ℕ
  symbolMeta : List (V × (ℕ × ℕ))
  allowedSplits : List (V × Finset ℕ)
  blocked : List V
  maxCores_pos : 0 < maxCores
  orig_pos : ∀ p ∈ itSpaceOrig, 0 < p.2
  symbolMeta_pos : ∀ p ∈ symbolMeta, 0 < p.2.1
  granularity_dvd : ∀ p ∈ symbolMeta, p.2.2 ∣ p.2.1
  adjusted_le : ∀ v, (itSpaceAdjusted.lookup v).getD 1 ≤ (itSpaceOrig.lookup v).getD 1

/-- The ways `must_split_vars` fails : the `Unsupported` of a variable without a candidate, and the
`KeyError` of a missing variable. -/
inductive SpanError (V : Type) where
  | noValidSplit (v : V) (origSize minRequired : ℕ) (tensor : String)
  | missing (v : V)
deriving DecidableEq

namespace SpanProblem

/-- `_effective_size`. -/
def effectiveSize (p : SpanProblem V) (v : V) : ℕ :=
  (p.symbolMeta.lookup v).elim ((p.itSpaceOrig.lookup v).getD 1) fun m => m.1

/-- The estimate in the original iteration space. -/
def span (p : SpanProblem V) (td : TensorDep V) (splits : Splits V) : ℤ :=
  getPerCoreSpan p.effectiveSize td splits

/-- The number whose divisors are tried. -/
def splitBasis (p : SpanProblem V) (v : V) : Except (SpanError V) ℕ :=
  (p.symbolMeta.lookup v).elim
    (((if v ∈ p.stickVars then p.itSpaceAdjusted else p.itSpaceOrig).lookup v).elim
      (.error (.missing v)) .ok) fun m => .ok m.2

/-- `valid_splits`. -/
def validSplits (p : SpanProblem V) (accumulated : Splits V) (v : V) :
    Except (SpanError V) (List ℕ) :=
  if v ∈ p.blocked then .ok [1]
  else do
    let basis ← p.splitBasis v
    .ok ((legalSplitFactors v basis p.allowedSplits []).filter fun s => accumulated.factor v ≤ s)

/-- `splits` with the factors of a combination. -/
def commit (accumulated : Splits V) (vars : List V) (combo : List ℕ) : Splits V :=
  (vars.zip combo).foldl (fun splits vs => splits.set vs.1 vs.2) accumulated

/-- The best combinations within and above the limit, with their estimates. -/
structure Best where
  within : Option (ℤ × List ℕ)
  above : Option (ℤ × List ℕ)

/-- One combination of the search. -/
def searchStep (p : SpanProblem V) (td : TensorDep V) (accumulated : Splits V) (vars : List V)
    (best : Best) (combo : List ℕ) : Best :=
  let trial := commit accumulated vars combo
  let span := p.span td trial
  if p.maxCores < trial.total then best
  else if span ≤ maxSpanBytes then
    if best.within.all fun b => combo.prod < b.2.prod ∨ combo.prod = b.2.prod ∧ -span < -b.1 then
      { best with within := some (span, combo) }
    else best
  else if best.above.all fun b => span < b.1 then { best with above := some (span, combo) }
  else best

/-- The combination chosen for a coordinate. -/
def search (p : SpanProblem V) (td : TensorDep V) (accumulated : Splits V) (vars : List V)
    (varDivisors : List (List ℕ)) : Option (ℤ × List ℕ) :=
  let best := (Choices.product varDivisors).foldl (p.searchStep td accumulated vars) ⟨none, none⟩
  best.within.or best.above

/-- The variables of a coordinate that can be split. -/
def splitVars (p : SpanProblem V) (coord : Coordinate V) : List V :=
  coord.symbols.filter fun v => 1 < p.effectiveSize v

/-- The loop over the coordinates of a tensor, outermost first. -/
def splitCoords (p : SpanProblem V) (td : TensorDep V) :
    Splits V → List (Coordinate V) → Except (SpanError V) (Splits V)
  | accumulated, [] => .ok accumulated
  | accumulated, coord :: coords =>
    if p.splitVars coord = [] then splitCoords p td accumulated coords
    else do
      let varDivisors ← mapE (p.validSplits accumulated) (p.splitVars coord)
      checkAll (fun vc => guardE (vc.2 ≠ []) (.noValidSplit vc.1 (p.effectiveSize vc.1)
        (accumulated.factor vc.1) td.name)) ((p.splitVars coord).zip varDivisors)
      (p.search td accumulated (p.splitVars coord) varDivisors).elim (.ok accumulated) fun best =>
        let committed := commit accumulated (p.splitVars coord) best.2
        if best.1 ≤ maxSpanBytes then .ok committed
        else if 1 < max (coord.value fun v => sliceSize p.effectiveSize committed v - 1) 0 + 1 then
          .ok committed
        else splitCoords p td committed coords

/-- One tensor of `must_split_vars`. -/
def splitTensor (p : SpanProblem V) (accumulated : Splits V) (td : TensorDep V) :
    Except (SpanError V) (Splits V) :=
  if p.span td accumulated ≤ maxSpanBytes then .ok accumulated
  else p.splitCoords td accumulated (td.dims.dropLast.map Prod.fst)

/-- `must_split_vars`. -/
def mustSplitVars (p : SpanProblem V) (tensorDeps : List (TensorDep V)) :
    Except (SpanError V) (Splits V) :=
  foldE p.splitTensor (Splits.ones ∅) tensorDeps

/-! ## Factors only grow -/

variable {p : SpanProblem V}

theorem effectiveSize_pos (p : SpanProblem V) (v : V) : 0 < p.effectiveSize v := by
  rw [effectiveSize]
  cases hmeta : p.symbolMeta.lookup v with
  | some m => exact p.symbolMeta_pos _ (Lists.mem_of_lookup hmeta)
  | none =>
    cases horig : p.itSpaceOrig.lookup v with
    | some n => exact p.orig_pos _ (Lists.mem_of_lookup horig)
    | none => exact one_pos

variable {varDivisors : List (List ℕ)} {vars : List V} {accumulated splits : Splits V}
  {td : TensorDep V} {v : V} {P : V → ℕ → Prop} {best : ℤ × List ℕ}

theorem splitBasis_le {basis : ℕ} (h : p.splitBasis v = .ok basis) :
    basis ≤ p.effectiveSize v := by
  rw [splitBasis] at h
  rw [effectiveSize]
  cases hmeta : p.symbolMeta.lookup v with
  | some m =>
    rw [hmeta] at h
    obtain rfl := Except.ok.inj h
    exact Nat.le_of_dvd (p.symbolMeta_pos _ (Lists.mem_of_lookup hmeta))
      (p.granularity_dvd _ (Lists.mem_of_lookup hmeta))
  | none =>
    rw [hmeta, Option.elim_none] at h
    have hle := p.adjusted_le v
    split_ifs at h
    · cases hadj : p.itSpaceAdjusted.lookup v with
      | none =>
        rw [hadj] at h
        cases h
      | some n =>
        rw [hadj] at h hle
        obtain rfl := Except.ok.inj h
        exact hle
    · cases horig : p.itSpaceOrig.lookup v with
      | none =>
        rw [horig] at h
        cases h
      | some n =>
        rw [horig] at h
        obtain rfl := Except.ok.inj h
        exact le_rfl

/-- What the search keeps : the product of the factors fits, a factor is at most its extent, and a
blocked variable is not split. -/
structure Keeps (p : SpanProblem V) (splits : Splits V) : Prop where
  fits : splits.total ≤ p.maxCores
  pos : ∀ v, 0 < splits.factor v
  le : ∀ v, splits.factor v ≤ p.effectiveSize v
  blocked : ∀ v ∈ p.blocked, splits.factor v = 1

theorem mem_validSplits (hacc : p.Keeps accumulated) {candidates : List ℕ}
    (h : p.validSplits accumulated v = .ok candidates) {s : ℕ} (hs : s ∈ candidates) :
    accumulated.factor v ≤ s ∧ s ≤ p.effectiveSize v ∧ (v ∈ p.blocked → s = 1) := by
  rw [validSplits] at h
  split_ifs at h with hblocked
  · obtain rfl := Except.ok.inj h
    obtain rfl := mem_singleton.1 hs
    exact ⟨le_of_eq (hacc.blocked v hblocked), p.effectiveSize_pos v, fun _ => rfl⟩
  · obtain ⟨basis, hbasis, h⟩ := bind_eq_ok_iff.1 h
    obtain rfl := Except.ok.inj h
    obtain ⟨hlegal, hle⟩ := mem_filter.1 hs
    refine ⟨of_decide_eq_true hle, ?_, fun hmem => absurd hmem hblocked⟩
    exact (Nat.divisor_le (mem_legalSplitFactors.1 hlegal).1).trans (splitBasis_le hbasis)

theorem commit_cons (accumulated : Splits V) (v : V) (vars : List V) (s : ℕ) (combo : List ℕ) :
    commit accumulated (v :: vars) (s :: combo) = commit (accumulated.set v s) vars combo :=
  rfl

theorem commit_factor_of_notMem (hv : v ∉ vars) :
    ∀ (combo : List ℕ) (accumulated : Splits V),
      (commit accumulated vars combo).factor v = accumulated.factor v := by
  induction vars with
  | nil => exact fun _ _ => rfl
  | cons w vars ih =>
    rw [mem_cons, not_or] at hv
    intro combo accumulated
    cases combo with
    | nil => rfl
    | cons s combo => rw [commit_cons, ih hv.2, Splits.set_factor_of_ne hv.1]

theorem commit_factor {combo : List ℕ} (h : List.Forall₂ P vars combo) (hnd : vars.Nodup)
    (accumulated : Splits V) :
    ∀ v ∈ vars, P v ((commit accumulated vars combo).factor v) := by
  induction h generalizing accumulated with
  | nil => simp
  | @cons w s vars combo hws _ ih =>
    obtain ⟨hw, hnd⟩ := nodup_cons.1 hnd
    intro v hv
    rw [commit_cons]
    rcases mem_cons.1 hv with rfl | hv
    · rw [commit_factor_of_notMem hw, Splits.set_factor_self]
      exact hws
    · exact ih hnd _ v hv

omit [DecidableEq V] in
/-- A combination has a candidate of each variable. -/
theorem forall₂_of_product {f : V → Except (SpanError V) (List ℕ)}
    (hP : ∀ v candidates s, f v = .ok candidates → s ∈ candidates → P v s) :
    ∀ {varDivisors : List (List ℕ)} {combo : List ℕ}, mapE f vars = .ok varDivisors →
      combo ∈ Choices.product varDivisors → List.Forall₂ P vars combo := by
  induction vars with
  | nil =>
    intro varDivisors combo h hcombo
    obtain rfl := Except.ok.inj h
    rw [Choices.mem_product, List.forall₂_nil_right_iff] at hcombo
    exact hcombo ▸ .nil
  | cons v vars ih =>
    intro varDivisors combo h hcombo
    obtain ⟨candidates, rest, hv, hrest, rfl⟩ := mapE_cons h
    rw [Choices.mem_product, List.forall₂_cons_right_iff] at hcombo
    obtain ⟨s, combo, hs, hcombo, rfl⟩ := hcombo
    exact .cons (hP v candidates s hv hs) (ih hrest (Choices.mem_product.2 hcombo))

/-- The combination chosen is one of those that fit. -/
theorem search_mem (h : p.search td accumulated vars varDivisors = some best) :
    best.2 ∈ Choices.product varDivisors ∧
      (commit accumulated vars best.2).total ≤ p.maxCores := by
  refine List.foldlRecOn (motive := fun b : Best => ∀ x, b.within = some x ∨ b.above = some x →
    x.2 ∈ Choices.product varDivisors ∧ (commit accumulated vars x.2).total ≤ p.maxCores)
    (Choices.product varDivisors) (p.searchStep td accumulated vars) (by simp)
    (fun b hb combo hcombo x hx => ?_) best ((Option.or_eq_some_iff.1 h).imp_right fun h => h.2)
  rw [searchStep] at hx
  by_cases hfit : p.maxCores < (commit accumulated vars combo).total
  · rw [if_pos hfit] at hx
    exact hb x hx
  · have hcombo := And.intro hcombo (not_lt.1 hfit)
    rw [if_neg hfit] at hx
    split_ifs at hx
    · rcases hx with hx | hx
      · exact Option.some.inj hx ▸ hcombo
      · exact hb x (.inr hx)
    · exact hb x hx
    · rcases hx with hx | hx
      · exact hb x (.inl hx)
      · exact Option.some.inj hx ▸ hcombo
    · exact hb x hx

/-- What is committed is at least what was, and is kept. -/
theorem commit_keeps (hacc : p.Keeps accumulated) {coord : Coordinate V}
    (hdivisors : mapE (p.validSplits accumulated) (p.splitVars coord) = .ok varDivisors)
    (h : p.search td accumulated (p.splitVars coord) varDivisors = some best) :
    p.Keeps (commit accumulated (p.splitVars coord) best.2) ∧
      ∀ v, accumulated.factor v ≤ (commit accumulated (p.splitVars coord) best.2).factor v := by
  obtain ⟨hmem, hfits⟩ := search_mem h
  have hchosen := commit_factor (forall₂_of_product
    (fun v candidates s hv hs => mem_validSplits hacc hv hs) hdivisors hmem)
    (coord.nodup.filter _) accumulated
  have hfactor : ∀ v, (v ∈ p.splitVars coord) ∨
      (commit accumulated (p.splitVars coord) best.2).factor v = accumulated.factor v := fun v =>
    (em _).imp_right fun hv => commit_factor_of_notMem hv _ _
  have hle : ∀ v, accumulated.factor v ≤
      (commit accumulated (p.splitVars coord) best.2).factor v := fun v =>
    (hfactor v).elim (fun hv => (hchosen v hv).1) fun heq => le_of_eq heq.symm
  refine ⟨⟨hfits, fun v => (hacc.pos v).trans_le (hle v), fun v => ?_, fun v hv => ?_⟩, hle⟩
  · rcases hfactor v with hvar | heq
    · exact (hchosen v hvar).2.1
    · exact heq ▸ hacc.le v
  · rcases hfactor v with hvar | heq
    · exact (hchosen v hvar).2.2 hv
    · exact heq ▸ hacc.blocked v hv

theorem splitCoords_keeps {coords : List (Coordinate V)} :
    ∀ {accumulated splits : Splits V}, p.Keeps accumulated →
      p.splitCoords td accumulated coords = .ok splits →
      p.Keeps splits ∧ ∀ v, accumulated.factor v ≤ splits.factor v := by
  induction coords with
  | nil =>
    intro accumulated splits hacc h
    obtain rfl := Except.ok.inj h
    exact ⟨hacc, fun _ => le_rfl⟩
  | cons coord coords ih =>
    intro accumulated splits hacc h
    rw [splitCoords] at h
    by_cases hvars : p.splitVars coord = []
    · rw [if_pos hvars] at h
      exact ih hacc h
    · rw [if_neg hvars] at h
      obtain ⟨varDivisors, hdivisors, h⟩ := bind_eq_ok_iff.1 h
      obtain ⟨_, -, h⟩ := bind_eq_ok_iff.1 h
      cases hbest : p.search td accumulated (p.splitVars coord) varDivisors with
      | none =>
        rw [hbest] at h
        obtain rfl := Except.ok.inj h
        exact ⟨hacc, fun _ => le_rfl⟩
      | some best =>
        obtain ⟨hcommit, hle⟩ := commit_keeps hacc hdivisors hbest
        rw [hbest, Option.elim_some] at h
        dsimp only at h
        split_ifs at h
        · obtain rfl := Except.ok.inj h
          exact ⟨hcommit, hle⟩
        · obtain rfl := Except.ok.inj h
          exact ⟨hcommit, hle⟩
        · obtain ⟨hsplits, hrest⟩ := ih hcommit h
          exact ⟨hsplits, fun v => (hle v).trans (hrest v)⟩

theorem splitTensor_keeps (hacc : p.Keeps accumulated)
    (h : p.splitTensor accumulated td = .ok splits) :
    p.Keeps splits ∧ ∀ v, accumulated.factor v ≤ splits.factor v := by
  rw [splitTensor] at h
  split_ifs at h
  · obtain rfl := Except.ok.inj h
    exact ⟨hacc, fun _ => le_rfl⟩
  · exact splitCoords_keeps hacc h

theorem run_keeps {tensorDeps : List (TensorDep V)} (hacc : p.Keeps accumulated)
    (h : foldE p.splitTensor accumulated tensorDeps = .ok splits) :
    p.Keeps splits ∧ ∀ v, accumulated.factor v ≤ splits.factor v := by
  refine foldE_inv (I := fun _ s => p.Keeps s ∧ ∀ v, accumulated.factor v ≤ s.factor v)
    (fun _ td _ s s' _ hs hstep => ?_) ⟨hacc, fun _ => le_rfl⟩ h
  obtain ⟨hkeeps, hle⟩ := splitTensor_keeps hs.1 hstep
  exact ⟨hkeeps, fun v => (hs.2 v).trans (hle v)⟩

theorem keeps_ones (p : SpanProblem V) : p.Keeps (Splits.ones ∅) where
  fits := by
    rw [Splits.total_ones]
    exact p.maxCores_pos
  pos _ := one_pos
  le v := p.effectiveSize_pos v
  blocked _ _ := rfl

/-- Larger factors have smaller slices. -/
theorem span_anti {size : V → ℕ} (hsize : ∀ v, 0 < size v) (htd : td.Regular size)
    {splits' : Splits V} (hpos : ∀ v, 0 < splits.factor v)
    (hle : ∀ v, splits.factor v ≤ splits'.factor v)
    (hextent : ∀ v, splits'.factor v ≤ size v ∨
      ∀ dim ∈ td.dims, v ∈ dim.1.symbols → dim.1.term v (-1) ≤ dim.1.term v 0) :
    getPerCoreSpan size td splits' ≤ getPerCoreSpan size td splits := by
  refine spanFrom_anti hsize fun dim hdim => ⟨htd.nonDecreasing dim hdim, htd.inside dim hdim,
    fun v => ?_, fun v => ?_, fun v hv => ?_⟩
  · exact Nat.div_le_div_left (hle v) (hpos v)
  · exact Nat.div_le_self _ _
  · refine (hextent v).imp (fun hv => ?_) fun hneg => hneg dim hdim hv
    exact Nat.div_pos hv ((hpos v).trans_le (hle v))

/-- The estimate of a regular tensor never increases when factors grow. A tensor within the limit
when it was processed, before or after its own search, is within it under the final factors, which
fit the cores. -/
theorem mustSplitVars_keeps_within (p : SpanProblem V) {tensorDeps : List (TensorDep V)}
    (hregular : ∀ td ∈ tensorDeps, td.Regular p.effectiveSize) :
    (∀ td ∈ tensorDeps, ∀ splits splits' : Splits V, (∀ v, 0 < splits.factor v) →
      (∀ v, splits.factor v ≤ splits'.factor v) →
      (∀ v, splits'.factor v ≤ p.effectiveSize v ∨
        ∀ dim ∈ td.dims, v ∈ dim.1.symbols → dim.1.term v (-1) ≤ dim.1.term v 0) →
      getPerCoreSpan p.effectiveSize td splits' ≤ getPerCoreSpan p.effectiveSize td splits) ∧
    ∀ splits, p.mustSplitVars tensorDeps = .ok splits → splits.total ≤ p.maxCores ∧
      ∀ pre td post before after, tensorDeps = pre ++ td :: post →
        p.mustSplitVars pre = .ok before → p.splitTensor before td = .ok after →
        (getPerCoreSpan p.effectiveSize td before ≤ maxSpanBytes ∨
          getPerCoreSpan p.effectiveSize td after ≤ maxSpanBytes) →
        getPerCoreSpan p.effectiveSize td splits ≤ maxSpanBytes := by
  refine ⟨fun td htd splits splits' hpos hle hextent =>
    span_anti p.effectiveSize_pos (hregular td htd) hpos hle hextent, fun splits h => ?_⟩
  refine ⟨(run_keeps p.keeps_ones h).1.fits, ?_⟩
  rintro pre td post before after rfl hbefore hafter hwithin
  have htd : td.Regular p.effectiveSize := hregular td (by simp)
  obtain ⟨before', hpre, hrest⟩ := foldE_append.1 h
  obtain rfl : before = before' := Except.ok.inj (hbefore.symm.trans hpre)
  obtain ⟨after', hstep, hpost⟩ := bind_eq_ok_iff.1 hrest
  obtain rfl : after = after' := Except.ok.inj (hafter.symm.trans hstep)
  have hkeeps := (run_keeps p.keeps_ones hbefore).1
  obtain ⟨hkeeps', hle⟩ := splitTensor_keeps hkeeps hafter
  obtain ⟨hfinal, hle'⟩ := run_keeps hkeeps' hpost
  rcases hwithin with hwithin | hwithin
  · exact (span_anti p.effectiveSize_pos htd hkeeps.pos (fun v => (hle v).trans (hle' v))
      fun v => .inl (hfinal.le v)).trans hwithin
  · exact (span_anti p.effectiveSize_pos htd hkeeps'.pos hle'
      fun v => .inl (hfinal.le v)).trans hwithin

/-- Eight blocks of `128` MiB, one for each index of a loop. -/
def blocks : TensorDep ℕ where
  name := "buf0"
  dims := [(⟨0, [0], fun _ x => x, by decide⟩, 8), (⟨0, [], fun _ x => x, by decide⟩, 2 ^ 20),
    (⟨0, [], fun _ x => x, by decide⟩, 64)]
  itemsize := 2

/-- Eight values on 24 cores. -/
def blocksProblem : SpanProblem ℕ where
  itSpaceOrig := [(0, 8)]
  itSpaceAdjusted := [(0, 8)]
  stickVars := []
  maxCores := 24
  symbolMeta := []
  allowedSplits := []
  blocked := []
  maxCores_pos := by decide
  orig_pos := by decide
  symbolMeta_pos := by decide
  granularity_dvd := by decide
  adjusted_le _ := le_rfl

theorem mustSplitVars_keeps_within_blocks :
    ∃ splits, blocksProblem.mustSplitVars [blocks] = .ok splits ∧ splits.factor 0 = 4 ∧
      getPerCoreSpan blocksProblem.effectiveSize blocks splits ≤ maxSpanBytes := by
  have hregular : ∀ td ∈ [blocks], td.Regular blocksProblem.effectiveSize := by
    intro td htd
    obtain rfl := mem_singleton.1 htd
    refine ⟨?_, ?_⟩
    · simp only [blocks, forall_mem_cons]
      exact ⟨fun v _ x _ y _ hxy => hxy, fun v _ x _ y _ hxy => hxy, fun v _ x _ y _ hxy => hxy,
        by simp⟩
    · simp only [blocks, forall_mem_cons]
      refine ⟨fun x hx => ?_, fun x _ => by simp [Coordinate.value],
        fun x _ => by simp [Coordinate.value], by simp⟩
      have hsize : blocksProblem.effectiveSize 0 = 8 := by decide
      have hx0 := hx 0
      rw [hsize] at hx0
      simpa [Coordinate.value] using hx0
  have hok : ((blocksProblem.splitTensor (Splits.ones ∅) blocks).map fun splits =>
      (splits.factor 0, getPerCoreSpan blocksProblem.effectiveSize blocks splits)) =
        .ok (4, maxSpanBytes) := by
    decide +kernel
  cases hstep : blocksProblem.splitTensor (Splits.ones ∅) blocks with
  | error e =>
    rw [hstep] at hok
    cases hok
  | ok splits =>
    rw [hstep] at hok
    have hrun : blocksProblem.mustSplitVars [blocks] = .ok splits :=
      bind_eq_ok_iff.2 ⟨splits, hstep, rfl⟩
    have hvalues := Prod.mk.inj (Except.ok.inj hok)
    refine ⟨splits, hrun, hvalues.1, ?_⟩
    exact ((mustSplitVars_keeps_within blocksProblem hregular).2 splits hrun).2 [] blocks [] _
      splits
      rfl rfl hstep (.inr (le_of_eq hvalues.2))

end SpanProblem

end WorkDivision

end TorchSpyre
