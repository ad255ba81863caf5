import Mathlib
import TorchSpyre.Checked

/-!
# Coordinates as terms

`normalize_coordinates` in `views.py` breaks the coordinate of every device dimension into terms
`num*(var % mod)//den + offset`, one for each loop variable, and gives every term a dimension of
its own. A stride that no other term fills becomes a dimension of its own, a gap, and so does a
dimension without a variable ; both get a synthetic variable of range one. Then neighbouring
dimensions of one variable are fused. The last dimension is the stick and is never fused.

A coordinate is a constant and a list of terms in different loop variables. The source collects
the variables of an expression in a set ; their order here is that of the list.
-/

namespace TorchSpyre

open Checked

namespace Alignment

/-! ## Coordinates -/

/-- A loop variable, or a synthetic one (`z0`, `z1`, ...). -/
inductive Var where
  | loop (i : ℕ)
  | synth (k : ℕ)
deriving DecidableEq

/-- What a term takes of its variable : `v`, `FloorDiv(v, d)`, `Mod(v, r)` or
`Mod(FloorDiv(v, d), r)`. -/
inductive Body where
  | var
  | floorDiv (d : ℕ)
  | mod (r : ℕ)
  | digit (d r : ℕ)
deriving DecidableEq

/-- The value of a body where the variable is `x`. -/
def Body.eval (x : ℕ) : Body → ℕ
  | .var => x
  | .floorDiv d => x / d
  | .mod r => x % r
  | .digit d r => x / d % r

/-- A body times `num / den`, rounded down. -/
structure CoordTerm where
  num : ℕ
  den : ℕ
  body : Body
  var : ℕ
deriving DecidableEq

/-- The value of a term at a point. -/
def CoordTerm.eval (pt : Var → ℕ) (t : CoordTerm) : ℕ :=
  t.num * t.body.eval (pt (.loop t.var)) / t.den

/-- A constant and the terms added to it. -/
structure Coordinate where
  offset : ℕ
  terms : List CoordTerm
deriving DecidableEq

/-- The value of a coordinate at a point. -/
def Coordinate.eval (pt : Var → ℕ) (c : Coordinate) : ℕ :=
  c.offset + (c.terms.map (CoordTerm.eval pt)).sum

/-- The sizes and coordinates of the device dimensions, outermost first. -/
abbrev Tensor := List (ℕ × Coordinate)

/-! ## Terms -/

/-- A term `num*(var % mod)//den + offset` and the size of the dimension it is for. A constant
has no variable, and zero for `None` in the other fields. -/
structure Term where
  num : ℕ
  den : ℕ
  var : Option Var
  mod : ℕ
  dimSize : ℕ
  offset : ℕ
deriving DecidableEq

/-- A dimension without a variable. -/
def Term.constant (dimSize : ℕ) : Term :=
  ⟨0, 0, none, 0, dimSize, 0⟩

/-- A dimension with a synthetic variable. -/
def Term.synthetic (k dimSize offset : ℕ) : Term :=
  ⟨1, 1, some (.synth k), 1, dimSize, offset⟩

/-- Where normalization or alignment gives up. -/
inductive AlignError where
  | coefficient (t : CoordTerm)
  | constant (offset : ℕ)
  | strided (c : Coordinate) (size stride : ℕ)
  | belowStride (c : Coordinate) (offset : ℕ)
  | noDimension
  | unalignedStickSplit (tensor : ℕ) (var : Var) (boundary stick : ℕ)
  | zeroDivision (var : Var)
  | notInSplits (var : Var) (boundary : ℕ)
  | strideLeft (var : Var) (num : ℕ)
deriving DecidableEq

/-- What a body divides the variable by. -/
def Body.divisor : Body → ℕ
  | .var => 1
  | .floorDiv d => d
  | .mod _ => 1
  | .digit d _ => d

/-- Where a body starts again. -/
def Body.modulus (range : ℕ) : Body → ℕ
  | .var => range
  | .floorDiv _ => range
  | .mod r => r
  | .digit d r => d * r

section Normalize

variable (ranges : ℕ → ℕ)

/-- `Term.from_coordinate`. -/
def fromCoordinate (dimSize : ℕ) (t : CoordTerm) : Except AlignError Term :=
  if t.num = 1 ∨ t.den = 1 then
    .ok ⟨t.num, t.den * t.body.divisor, some (.loop t.var), t.body.modulus (ranges t.var), dimSize,
      0⟩
  else .error (.coefficient t)

/-- The order in which the terms of a dimension are placed, innermost first. -/
def Term.Before (t u : Term) : Prop :=
  t.num < u.num ∨ t.num = u.num ∧ t.mod ≤ u.mod

instance : DecidableRel Term.Before := fun t u =>
  inferInstanceAs (Decidable (t.num < u.num ∨ t.num = u.num ∧ t.mod ≤ u.mod))

/-- The terms of a dimension, innermost first, with their own sizes and their parts of the
constant. Returns also what is left of the constant below the smallest stride. -/
def splitTerms (size : ℕ) : ℕ → List Term → ℕ → List Term × ℕ
  | _, [], offset => ([], offset)
  | cum, [t], offset =>
    ([{ t with dimSize := size / cum, offset := offset / t.num }], offset % t.num)
  | cum, t :: u :: rest, offset =>
    let r := splitTerms size (cum * (u.num / t.num)) (u :: rest) offset
    ({ t with dimSize := u.num / t.num, offset := r.2 / t.num } ::
      r.1.map fun w => { w with num := 1 }, r.2 % t.num)

/-- The size of a lone strided term, in steps. A group that is not complete is accepted on the
outermost dimension only. -/
def stridedSize (outermost : Bool) (c : Coordinate) (size residual : ℕ) (inner : Term) :
    Except AlignError ℕ :=
  let stride := inner.num
  let start := stride * inner.offset + residual
  if size % stride = 0 then .ok (size / stride)
  else
    match inner.var with
    | some (.loop i) =>
      if outermost ∧ 0 < ranges i ∧ c = ⟨start, [⟨stride, 1, .var, i⟩]⟩ ∧
          start + stride * (ranges i - 1) < size then
        .ok ((size + stride - 1) / stride)
      else .error (.strided c size stride)
    | _ => .error (.strided c size stride)

/-- The size of the innermost term of a strided dimension. -/
def innerSize (outermost : Bool) (c : Coordinate) (residual : ℕ) (inner : Term)
    (others : List Term) : Except AlignError ℕ :=
  if others = [] then stridedSize ranges outermost c inner.dimSize residual inner
  else .ok inner.dimSize

/-- The placed terms of a dimension, outermost first, with the gap that realizes a stride. -/
def realizeGap (outermost stick : Bool) (c : Coordinate) (k : ℕ) :
    List Term × ℕ → Except AlignError (List Term × ℕ)
  | ([], _) => .ok ([], k)
  | (inner :: others, residual) =>
    if 1 < inner.num ∧ stick = false then do
      let size ← innerSize ranges outermost c residual inner others
      .ok (({ inner with num := 1, dimSize := size } :: others).reverse ++
        [Term.synthetic k inner.num residual], k + 1)
    else if residual ≠ 0 then .error (.belowStride c residual)
    else .ok ((inner :: others).reverse, k)

/-- The terms of one dimension. `k` counts the synthetic variables. -/
def splitDim (outermost stick : Bool) (d : ℕ × Coordinate) (k : ℕ) :
    Except AlignError (List Term × ℕ) :=
  if d.2.terms = [] then
    if 1 < d.1 ∧ stick = false then .ok ([Term.synthetic k d.1 d.2.offset], k + 1)
    else if d.2.offset = 0 then .ok ([Term.constant d.1], k)
    else .error (.constant d.2.offset)
  else do
    let terms ← mapE (fromCoordinate ranges d.1) d.2.terms
    realizeGap ranges outermost stick d.2 k
      (splitTerms d.1 1 (terms.insertionSort Term.Before) d.2.offset)

/-- The terms of all dimensions. The last dimension is the stick. -/
def splitDims : Bool → ℕ → Tensor → Except AlignError (List Term × ℕ)
  | _, k, [] => .ok ([], k)
  | outermost, k, d :: dims => do
    let r ← splitDim ranges outermost dims.isEmpty d k
    let rest ← splitDims (outermost && d.1 = 1) r.2 dims
    .ok (r.1 ++ rest.1, rest.2)

/-- A dimension of size one with coordinate zero. -/
def Term.isPlaceholder (t : Term) : Bool :=
  t.var = none && t.dimSize = 1 && t.offset = 0

/-- Neighbouring terms that are fused. -/
def canFuse (fused t : Term) (skipped : Bool) : Bool :=
  fused.num = 1 && fused.var = t.var && fused.den = t.mod &&
    (!skipped || t.num = 1 && fused.offset = 0 && fused.den = t.den * t.dimSize)

/-- Take the next term into the one so far. -/
def Term.fuse (fused t : Term) : Term :=
  { fused with num := t.num, den := t.den, dimSize := fused.dimSize * t.dimSize,
               offset := fused.offset + t.offset }

/-- Emit a fused term, unless it is empty. -/
def Term.flush (t : Term) : List Term :=
  if 1 < t.dimSize ∨ t.var ≠ none then [t] else []

/-- The loop that fuses contiguous dimensions. -/
def fuseTerms (fused : Term) (skipped : Bool) : List Term → List Term
  | [] => fused.flush
  | t :: terms =>
    if t.isPlaceholder then fuseTerms fused true terms
    else if canFuse fused t skipped then fuseTerms (fused.fuse t) false terms
    else fused.flush ++ fuseTerms t false terms

/-- The terms of a tensor : those of the outer dimensions, that of the stick, and how many
synthetic variables they use. -/
structure Normal where
  outer : List Term
  stick : Term
  synths : ℕ

/-- `normalize_coordinates`. -/
def normalizeCoordinates (tensor : Tensor) : Except AlignError Normal := do
  let r ← splitDims ranges true 0 tensor
  match r.1 with
  | [] => .error .noDimension
  | t :: terms => .ok ⟨fuseTerms t false terms.dropLast, terms.getLastD t, r.2⟩

end Normalize

end Alignment

end TorchSpyre
