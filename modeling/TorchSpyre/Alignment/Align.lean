import Mathlib
import TorchSpyre.Alignment.Normalize

/-!
# Aligning tensors

`align_tensors_pure` in `views.py` rewrites the coordinates of all tensors of an operation over
a common iteration space. It collects the boundaries `den` and `mod` at which the terms of any
tensor cut a loop variable, replaces the variable by one variable for each segment between two
boundaries, and gives every term the dimensions of its segments. The boundary of a tensor's own
stick is left out ; the dimension that counts sticks keeps its division instead.

Ranges are concrete here and all variables are loop variables, so that nothing has to be restored
after the alignment.
-/

namespace TorchSpyre

open Checked

namespace Alignment

/-! ## Inputs and outputs -/

/-- Range and work division of the loop variables, the tensors, and the variables for which a
repeat was found. -/
structure Inputs where
  space : List (ℕ × ℕ)
  tensors : List Tensor
  repeats : List ℕ

/-- The concrete range of a loop variable. -/
def Inputs.ranges (inp : Inputs) (i : ℕ) : ℕ :=
  (inp.space[i]?.map Prod.fst).getD 0

/-- The expressions `c`, `v + offset`, `v // den + offset` and `v % size + offset`. -/
inductive NewCoord where
  | const (c : ℕ)
  | var (v : Var) (offset : ℕ)
  | quot (v : Var) (den offset : ℕ)
  | rem (v : Var) (size offset : ℕ)
deriving DecidableEq

/-- The value of a new coordinate at a point. -/
def NewCoord.eval (pt : Var → ℕ) : NewCoord → ℕ
  | .const c => c
  | .var v offset => pt v + offset
  | .quot v den offset => pt v / den + offset
  | .rem v size offset => pt v % size + offset

/-- The free symbol of a coordinate. -/
def NewCoord.symbol : NewCoord → Option Var
  | .const _ => none
  | .var v _ => some v
  | .quot v _ _ => some v
  | .rem v _ _ => some v

/-- The sizes and new coordinates of the dimensions. -/
abbrev NewTensor := List (ℕ × NewCoord)

/-! ## Boundaries -/

/-- The range of a variable. -/
def Inputs.rangeOf (inp : Inputs) : Var → ℕ
  | .loop i => inp.ranges i
  | .synth _ => 1

/-- The boundaries of the terms of a tensor, without that of its own stick. -/
def bounds (repeats : List ℕ) (N : Normal) : List (Var × ℕ) :=
  (N.outer ++ [N.stick]).flatMap fun t =>
    match t.var with
    | none => []
    | some v =>
      (if t.den ≠ N.stick.dimSize ∨ some v ≠ N.stick.var then [(v, t.den)] else []) ++
        if t.mod ≠ N.stick.dimSize ∨ some v ≠ N.stick.var ∨ v ∈ repeats.map Var.loop then
          [(v, t.mod)]
        else []

/-- The sorted boundaries of a variable. -/
def splits (repeats : List ℕ) (Ns : List Normal) (v : Var) : List ℕ :=
  ((((Ns.flatMap (bounds repeats)).filter fun p => p.1 = v).map Prod.snd).dedup).insertionSort
    fun a b => a ≤ b

/-- How many synthetic variables the tensors share. -/
def sharedSynths (Ns : List Normal) : ℕ :=
  (Ns.map Normal.synths).foldr max 0

/-- Insert a dimension of size one for a synthetic variable that the tensor does not use. -/
def insertSynth (N : Normal) (k : ℕ) : Normal :=
  if (N.outer ++ [N.stick]).any fun t => t.var = some (.synth k) then N
  else { N with outer := Term.synthetic k 1 0 :: N.outer }

/-- Insert the synthetic terms one after the other. -/
def insertSynths (count : ℕ) (N : Normal) : Normal :=
  (List.range count).foldl insertSynth N

/-- An interior boundary of the stick variable must not cut a stick, in a tensor that has a
dimension that counts sticks. -/
def checkStick (split : Var → List ℕ) (N : Normal × ℕ) : Except AlignError Unit :=
  match N.1.stick.var with
  | none => .ok ()
  | some v =>
    if N.1.outer.any fun t => t.var = some v && t.den = N.1.stick.dimSize then
      checkAll (fun b => guardE (b % N.1.stick.dimSize = 0)
        (.unalignedStickSplit N.2 v b N.1.stick.dimSize)) (split v).tail.dropLast
    else .ok ()

/-! ## The new iteration space -/

/-- A new variable, the variable it comes from, and the segment of values it counts, with the
lower end of the segment. -/
structure Segment where
  new : Var
  old : Var
  lower : ℕ
  range : ℕ
deriving DecidableEq

/-- The segments after the first one. `next` counts the synthetic variables. -/
def laterSegments (v : Var) : ℕ → List ℕ → List Segment
  | next, b :: c :: rest => ⟨.synth next, v, b, c / b⟩ :: laterSegments v (next + 1) (c :: rest)
  | _, _ => []

/-- The segments of a variable. -/
def segmentsOf (v : Var) (range next : ℕ) : List ℕ → List Segment
  | b :: c :: rest => ⟨v, v, b, c / b⟩ :: laterSegments v next (c :: rest)
  | _ => [⟨v, v, 1, range⟩]

/-- The segments of all variables. -/
def segments (range : Var → ℕ) (split : Var → List ℕ) : ℕ → List Var → List Segment
  | _, [] => []
  | next, v :: vars =>
    segmentsOf v (range v) next (split v) ++
      segments range split (next + ((split v).length - 2)) vars

/-- The variables, loop variables first. -/
def allVars (loops synths : ℕ) : List Var :=
  (List.range loops).map Var.loop ++ (List.range synths).map Var.synth

/-- Distribute a work division over bases, the last one first. -/
def divideWork : List ℕ → ℕ → List ℕ × ℕ
  | [], div => ([], div)
  | basis :: bases, div =>
    let r := divideWork bases div
    (r.2.gcd basis :: r.1, r.2 / r.2.gcd basis)

/-- The basis of the work division of a new variable : sticks for a stick variable. -/
def workBasis (Ns : List Normal) (s : Segment) : ℕ :=
  if s.new = s.old then
    match Ns.find? fun N => N.stick.var = some s.new with
    | some N => (s.range + N.stick.dimSize - 1) / N.stick.dimSize
    | none => s.range
  else s.range

/-- The work division of the new variables of one variable, and what each is based on. -/
def divideVar (Ns : List Normal) (split : List ℕ) (div : ℕ) (segs : List Segment) :
    List (Segment × ℕ) × List (Var × ℕ) :=
  if 1 < split.length then
    (segs.zip (divideWork (segs.map (workBasis Ns)) div).1,
      segs.map fun s => (s.new, workBasis Ns s))
  else (segs.map fun s => (s, div), segs.map fun s => (s.new, 1))

/-! ## New dimensions -/

/-- The dimensions of the segments from `low`, outermost first. The coordinate of a segment gets
its part of the offset. `top` is the size of the outermost. -/
def segmentDims (b : ℕ → ℕ) (new : ℕ → Var) (low high top : ℕ) : ℕ → ℕ → NewTensor
  | 0, _ => []
  | n + 1, offset =>
    (if low + n + 1 = high then top else b (low + n + 1) / b (low + n),
        .var (new (low + n)) (offset / b (low + n))) ::
      segmentDims b new low high top n (offset % b (low + n))

/-- Turn the innermost dimension into one that counts sticks. -/
def countSticks (den : ℕ) (dims : NewTensor) : NewTensor :=
  dims.dropLast ++ dims.getLast?.toList.map fun d =>
    (d.1 / den, match d.2 with
      | .var v offset => .quot v den offset
      | c => c)

/-- The position of a boundary. -/
def boundaryIndex (split : Var → List ℕ) (v : Var) (boundary : ℕ) : Except AlignError ℕ :=
  match (split v).idxOf? boundary with
  | some i => .ok i
  | none => .error (.notInSplits v boundary)

/-- Whether a term counts the sticks of its tensor. -/
def Term.isOuterStick (split : Var → List ℕ) (t stick : Term) (v : Var) : Bool :=
  stick.var = some v && t.den = stick.dimSize && t.den ∉ split v

/-- The position of the lower boundary of a term. -/
def lowIndex (split : Var → List ℕ) (stick t : Term) (v : Var) : Except AlignError ℕ :=
  if t.isOuterStick split stick v then .ok 0 else boundaryIndex split v t.den

/-- The dimensions of a term between two of its boundaries. -/
def spanDims (split : Var → List ℕ) (new : Var → ℕ → Var) (t : Term) (v : Var) (low high : ℕ) :
    NewTensor :=
  if low = high then [(t.dimSize, .var v t.offset)]
  else
    let b := fun i => (split v).getD i 0
    segmentDims b (new v) low high (t.dimSize * t.den / b (high - 1)) (high - low) t.offset

/-- The dimensions of a term. -/
def termDims (split : Var → List ℕ) (new : Var → ℕ → Var) (stick t : Term) :
    Except AlignError NewTensor :=
  match t.var with
  | none => .ok [(t.dimSize, .const t.offset)]
  | some v => do
    let low ← lowIndex split stick t v
    let high ← boundaryIndex split v t.mod
    guardE (t.num = 1) (.strideLeft v t.num)
    let dims := spanDims split new t v low high
    .ok (if t.isOuterStick split stick v then countSticks t.den dims else dims)

/-- The coordinate in the stick. `v % 1` is zero. -/
def stickCoord (stick : Term) : NewCoord :=
  match stick.var with
  | none => .const stick.offset
  | some v => if stick.dimSize = 1 then .const stick.offset else .rem v stick.dimSize stick.offset

/-- The outer dimensions of a new tensor and its stick. -/
structure Aligned where
  outer : NewTensor
  stick : ℕ × NewCoord

/-- The new dimensions of a tensor, the stick last. -/
def alignTensor (split : Var → List ℕ) (new : Var → ℕ → Var) (N : Normal) :
    Except AlignError Aligned := do
  let dims ← mapE (termDims split new N.stick) N.outer
  .ok ⟨dims.flatten, N.stick.dimSize, stickCoord N.stick⟩

/-! ## Ranks -/

/-- A dimension of size one with coordinate zero. -/
def isUnit (d : ℕ × NewCoord) : Bool :=
  d.1 = 1 && d.2 = .const 0

/-- The rank a tensor needs, with a dimension that can count sticks. -/
def neededRank (N : Normal) (A : Aligned) : ℕ :=
  let found := A.outer.any fun d => isUnit d || N.stick.var.isSome && d.2.symbol = N.stick.var
  A.outer.length + 1 + if found then 0 else 1

/-- Add outer dimensions of size one. -/
def extend (rank : ℕ) (A : Aligned) : Aligned :=
  { A with outer := List.replicate (rank - (A.outer.length + 1)) (1, .const 0) ++ A.outer }

/-- Let the first dimension of size one count the sticks of `v`. -/
def placeStick (v : Var) (size : ℕ) : NewTensor → Option NewTensor
  | [] => none
  | d :: dims =>
    if isUnit d then some ((1, .quot v size 0) :: dims)
    else (placeStick v size dims).map fun rest => d :: rest

/-- The stick variable occurs twice if it occurs at all. -/
def repeatStick (A : Aligned) : Aligned :=
  match A.stick.2.symbol with
  | none => A
  | some v =>
    if A.outer.any fun d => d.2.symbol = some v then A
    else
      match placeStick v A.stick.1 A.outer with
      | none => A
      | some outer => ⟨outer, A.stick.1, .rem v A.stick.1 0⟩

/-- All dimensions, the stick innermost. -/
def Aligned.dims (A : Aligned) : NewTensor :=
  A.outer ++ [A.stick]

/-! ## The alignment -/

/-- The new iteration space with its work division, the new tensors, and for every variable its
new variables with the bases of their work division. -/
structure Outputs where
  space : List (Segment × ℕ)
  tensors : List NewTensor
  remap : List (Var × List (Var × ℕ))

/-- The `i`th new variable of `v`. -/
def newVar (segs : List Segment) (v : Var) (i : ℕ) : Var :=
  ((segs.filter fun s => s.old = v).map Segment.new).getD i v

/-- A variable is cut from its first boundary on. -/
def checkZero (split : Var → List ℕ) (v : Var) : Except AlignError Unit :=
  guardE ((split v).length ≤ 1 ∨ 0 < (split v).headD 0) (.zeroDivision v)

/-- `align_tensors_pure`. -/
def alignTensorsPure (inp : Inputs) : Except AlignError Outputs := do
  let Ns ← mapE (normalizeCoordinates inp.ranges) inp.tensors
  let split := splits inp.repeats Ns
  let synths := sharedSynths Ns
  let full := Ns.map (insertSynths synths)
  checkAll (checkStick split) full.zipIdx
  let vars := allVars inp.space.length synths
  checkAll (checkZero split) vars
  let segs := segments inp.rangeOf split synths vars
  let division := fun v : Var =>
    match v with
    | .loop i => (inp.space[i]?.map Prod.snd).getD 1
    | .synth _ => 1
  let work := vars.map fun v =>
    (v, divideVar full (split v) (division v) (segs.filter fun s => s.old = v))
  let aligned ← mapE (alignTensor split (newVar segs)) full
  let rank := (List.zipWith neededRank full aligned).foldr max 0
  .ok ⟨work.flatMap fun w => w.2.1,
    aligned.map fun A => (repeatStick (extend rank A)).dims,
    work.map fun w => (w.1, w.2.2)⟩

end Alignment

end TorchSpyre
