import Mathlib
import TorchSpyre.Ladder
import TorchSpyre.Checked

/-!
# Coordinates from an index

`compute_coordinates` in `views.py` turns the index of an access into one expression for each
dimension of the layout. A loop variable is spread over the dimensions its values reach : the
one with the largest stride up to the variable's step, and every one whose stride lies between
the step and a limit on the values. A remainder is taken where the values go past the next
dimension.

An index is a constant and one term for every loop variable. A term is a sum of integer multiples
of the variable, of quotients of it and of remainders `Mod(FloorDiv(v, d), m)`. `find_repeat_vars`
looks for the remainders before terms are added. Expressions are kept as what they are made of ;
the order in which the source visits the variables of an index is that of a set, and here that
of a list.
-/

namespace TorchSpyre

open Checked

namespace Views

/-! ## Layouts and indices -/

/-- The dimensions of a layout. -/
structure Dims where
  n : ℕ
  size : ℕ → ℕ
  stride : ℕ → ℤ

/-- A variable, a quotient of it, or a remainder of a quotient. -/
inductive Part where
  | var
  | floorDiv (divisor : ℕ)
  | mod (divisor modulus : ℕ)
deriving DecidableEq

namespace Part

/-- The value of a part where the variable is `x`. -/
def eval (x : ℕ) : Part → ℕ
  | .var => x
  | .floorDiv divisor => x / divisor
  | .mod divisor modulus => x / divisor % modulus

/-- `FloorDiv(v, 1)` is `v` and `Mod(v, 1)` is zero. -/
def Normal : Part → Prop
  | .var => True
  | .floorDiv divisor => 1 < divisor
  | .mod divisor modulus => 0 < divisor ∧ 1 < modulus

instance : DecidablePred Normal := fun p =>
  match p with
  | .var => .isTrue trivial
  | .floorDiv _ => inferInstanceAs (Decidable (_ < _))
  | .mod _ _ => inferInstanceAs (Decidable (_ ∧ _))

end Part

/-- A part times a coefficient. -/
structure Addend where
  coeff : ℤ
  part : Part
deriving DecidableEq

/-- A multiple of `Mod(FloorDiv(v, divisor), modulus)`. -/
structure Digit where
  divisor : ℕ
  modulus : ℕ
  coeff : ℤ
deriving DecidableEq

/-- A remainder as a digit. -/
def Addend.digit (a : Addend) : Option Digit :=
  match a.part with
  | .mod divisor modulus => some ⟨divisor, modulus, a.coeff⟩
  | _ => none

/-- What a variable contributes to an index : a sum of multiples of different parts. -/
structure VarTerm where
  addends : List Addend
  normal : ∀ a ∈ addends, a.coeff ≠ 0 ∧ a.part.Normal
  nodup : (addends.map Addend.part).Nodup

namespace VarTerm

/-- The value of a term where the variable is `x`. -/
def eval (t : VarTerm) (x : ℕ) : ℤ :=
  (t.addends.map fun a => a.coeff * (a.part.eval x : ℤ)).sum

/-- The remainders of a term. -/
def mods (t : VarTerm) : List Digit :=
  t.addends.filterMap Addend.digit

end VarTerm

/-- A loop variable with its term. -/
structure LoopVar where
  name : String
  range : ℕ
  term : VarTerm

/-- A constant and the terms of the variables. -/
structure Index where
  offset : ℕ
  vars : List LoopVar

/-- The value of an index where variable `i` has the value `pt i`. -/
def Index.eval (ix : Index) (pt : ℕ → ℕ) : ℤ :=
  ix.offset + (ix.vars.zipIdx.map fun v => v.1.term.eval (pt v.2)).sum

/-! ## Coordinates -/

/-- What is spread over the dimensions : a constant, a variable, or a remainder of one. -/
inductive Node where
  | const (c : ℕ)
  | var (v : ℕ)
  | mod (v divisor modulus : ℕ)
deriving DecidableEq

/-- The value of a node at a point. -/
def Node.eval (pt : ℕ → ℕ) : Node → ℕ
  | .const c => c
  | .var v => pt v
  | .mod v divisor modulus => pt v / divisor % modulus

/-- The expression `node * step % next // stride`, or without the remainder. -/
structure Piece where
  node : Node
  step : ℤ
  next : Option ℤ
  stride : ℤ
deriving DecidableEq

/-- The value of a piece at a point. -/
def Piece.eval (pt : ℕ → ℕ) (p : Piece) : ℤ :=
  let x : ℤ := p.node.eval pt * p.step
  match p.next with
  | none => x / p.stride
  | some s => x % s / p.stride

/-- A constant and the pieces added to it. -/
structure Coordinate where
  const : ℤ := 0
  pieces : List Piece := []
deriving DecidableEq

/-- The value of a coordinate at a point. -/
def Coordinate.eval (pt : ℕ → ℕ) (c : Coordinate) : ℤ :=
  c.const + (c.pieces.map (Piece.eval pt)).sum

/-- A coordinate for each dimension. -/
abbrev Coordinates := ℕ → Coordinate

/-- Add a piece to one dimension. -/
def Coordinates.add (coords : Coordinates) (dim : ℕ) (p : Piece) : Coordinates :=
  Function.update coords dim { coords dim with pieces := (coords dim).pieces ++ [p] }

/-- The `Unsupported` errors. -/
inductive CoordError where
  | multipleMods (var : String) (range : ℕ) (mods : List Digit)
  | backwards (node : Node) (step limit : ℤ)
deriving DecidableEq

/-! ## Repeats -/

/-- `_mixed_radix_digits` : the digits from low to high, if they are the whole term, have positive
coefficients and cover the range exactly. -/
def mixedRadixDigits (v : LoopVar) : Option (List Digit) :=
  let mods := v.term.mods
  if v.term.addends.length ≠ mods.length then none
  else if mods.any fun d => d.coeff ≤ 0 || d.divisor = 0 || d.modulus = 0 then none
  else
    let digits := mods.insertionSort fun a b => a.divisor ≤ b.divisor
    if (digits.head?.map Digit.divisor) ≠ some 1 then none
    else if (digits.zip digits.tail).any fun p => p.1.divisor * p.1.modulus ≠ p.2.divisor then none
    else if (digits.getLast?.map fun d => d.divisor * d.modulus) ≠ some v.range then none
    else some digits

/-- How a variable repeats : a multiple of one remainder, or a chain of digits. The kinds `mod` and
`mul_mod` of the source differ in the coefficient only. -/
inductive RepeatInfo where
  | mulMod (coeff : ℤ) (divisor modulus : ℕ)
  | mixedRadix (digits : List Digit)

/-- `find_repeat_vars`, for one variable. A single remainder is recognised where the index with
the other variables at zero is a multiple of that remainder. -/
def findRepeat (ix : Index) (v : LoopVar) : Except CoordError (Option RepeatInfo) :=
  if 1 < v.term.mods.length then
    match mixedRadixDigits v with
    | none => .error (.multipleMods v.name v.range v.term.mods)
    | some digits => .ok (some (.mixedRadix digits))
  else
    match v.term.addends with
    | [⟨coeff, .mod divisor modulus⟩] =>
      if modulus < v.range ∧ ix.offset = 0 then .ok (some (.mulMod coeff divisor modulus))
      else .ok none
    | _ => .ok none

/-! ## Terms -/

section Terms

variable (D : Dims)

/-- A value is below a limit. -/
def below (s : ℤ) : Option ℤ → Bool
  | none => true
  | some l => decide (s < l)

/-- The stride immediately larger than that of dimension `i`, among dimensions of size above
one. -/
def nextStride (i : ℕ) : Option ℤ :=
  (List.range D.n).foldl (fun next j =>
    if below (D.stride j) next ∧ D.stride i < D.stride j ∧ 1 < D.size j then some (D.stride j)
    else next) none

/-- The expression added to a dimension. -/
def pieceAt (node : Node) (step : ℤ) (limit : Option ℤ) (dim : ℕ) : Piece where
  node := node
  step := step
  next := (nextStride D dim).filter fun s => below s limit
  stride := D.stride dim

/-- The primary dimension so far, and the coordinates. -/
structure Adding where
  primaryStride : ℤ
  primaryDim : Option ℕ
  coords : Coordinates

/-- One iteration of the loop of `add_term`. -/
def addStep (node : Node) (step : ℤ) (limit : Option ℤ) (st : Adding) (dim : ℕ) : Adding :=
  if D.size dim = 1 then st
  else if D.stride dim ≤ step ∧ st.primaryStride < D.stride dim then
    { st with primaryStride := D.stride dim, primaryDim := some dim }
  else if step < D.stride dim ∧ below (D.stride dim) limit then
    { st with coords := st.coords.add dim (pieceAt D node step limit dim) }
  else st

/-- `add_term`. -/
def addTerm (node : Node) (step : ℤ) (limit : Option ℤ) (coords : Coordinates) :
    Except CoordError Coordinates :=
  match limit.filter fun l => l < step with
  | some l => .error (.backwards node step l)
  | none =>
    let st := (List.range D.n).foldl (addStep D node step limit) ⟨0, none, coords⟩
    match st.primaryDim with
    | none => .ok st.coords
    | some p => .ok (st.coords.add p (pieceAt D node step limit p))

/-- One digit of the offset. -/
def peel (st : ℤ × List (ℕ × ℤ)) (d : ℕ) : ℤ × List (ℕ × ℤ) :=
  if st.1 < D.stride d then st
  else (st.1 - st.1 / D.stride d * D.stride d, st.2 ++ [(d, st.1 / D.stride d)])

/-- `_decompose_constant_offset` : the digits from the largest stride down. -/
def decomposeConstantOffset (offset : ℕ) : Option (List (ℕ × ℤ)) :=
  let dims := ((List.range D.n).filter fun d => 1 < D.size d ∧ 0 < D.stride d).insertionSort
    fun d e => D.stride e ≤ D.stride d
  let r := dims.foldl (peel D) ((offset : ℤ), [])
  if r.1 = 0 then some r.2 else none

/-- Add the digits of the offset. -/
def addDigits (coords : Coordinates) (digits : List (ℕ × ℤ)) : Coordinates :=
  digits.foldl (fun coords d =>
    Function.update coords d.1 { coords d.1 with const := (coords d.1).const + d.2 }) coords

/-- The coordinates of the offset alone. -/
def offsetCoordinates (offset : ℕ) : Except CoordError Coordinates :=
  if 0 < offset then
    match decomposeConstantOffset D offset with
    | some digits => .ok (addDigits (fun _ => {}) digits)
    | none => addTerm D (.const offset) 1 none fun _ => {}
  else .ok fun _ => {}

/-- The arguments of a call of `add_term`. -/
structure AddedTerm where
  node : Node
  step : ℤ
  limit : ℤ

/-- A remainder of variable `i`, with its coefficient as the step. -/
def remainderTerm (i : ℕ) (coeff : ℤ) (divisor modulus : ℕ) : AddedTerm where
  node := .mod i divisor modulus
  step := coeff
  limit := coeff * modulus

/-- The limit of a term that is not recognised : the value at the range. That of a positive multiple
of the variable is exclusive. -/
def LoopVar.limit (v : LoopVar) : ℤ :=
  if 0 < v.term.eval 1 ∧ v.term.addends = [⟨v.term.eval 1, .var⟩] then
    v.term.eval 1 * (v.range - 1) + 1
  else v.term.eval v.range

/-- Variable `i` itself, with the value of its term at 1 as the step. -/
def wholeTerm (i : ℕ) (v : LoopVar) : AddedTerm where
  node := .var i
  step := v.term.eval 1
  limit := v.limit

/-- What the loop over the variables adds for variable `i`. -/
def varTerms (ix : Index) (v : LoopVar) (i : ℕ) : Except CoordError (List AddedTerm) := do
  let info ← findRepeat ix v
  if v.range ≤ 1 then return []
  match info with
  | some (.mulMod coeff divisor modulus) => return [remainderTerm i coeff divisor modulus]
  | some (.mixedRadix digits) =>
    return digits.map fun d => remainderTerm i d.coeff d.divisor d.modulus
  | none => return [wholeTerm i v]

/-- A call of `add_term` for a variable. -/
def addCall (coords : Coordinates) (t : AddedTerm) : Except CoordError Coordinates :=
  addTerm D t.node t.step (some t.limit) coords

/-- The body of the loop over the variables. -/
def addVar (ix : Index) (coords : Coordinates) (v : LoopVar × ℕ) :
    Except CoordError Coordinates := do
  let terms ← varTerms ix v.1 v.2
  foldE (addCall D) coords terms

/-- `compute_coordinates`. -/
def computeCoordinates (ix : Index) : Except CoordError Coordinates := do
  let coords ← offsetCoordinates D ix.offset
  foldE (addVar D ix) coords ix.vars.zipIdx

end Terms

end Views

end TorchSpyre
