import Mathlib
import TorchSpyre.Buffer
import TorchSpyre.Binary64
import TorchSpyre.Kahn
import TorchSpyre.Scratchpad

/-!
# The first-fit and best-fit layout solvers

`scratchpad/firstfit_bestfit_solver.py`. Buffers are placed one by one, in an order that puts
declared in-place parents before their children and otherwise follows a priority score. For
each buffer the solver subtracts the slots of the buffers it is live with from the whole
scratchpad. A first attempt ignores declared parents in the subtraction and takes the slot of
a parent that fits a remaining gap. The second treats parents as conflicts and takes an
aligned address in a gap. The two solvers differ in the gap they pick.
-/

namespace TorchSpyre

open Checked

namespace FirstFit

/-- Free addresses, with the declared parents whose slots lie inside. -/
structure Gap where
  start : ℕ
  stop : ℕ
  inPlaceParents : List String := []

/-! ## The order of placement -/

/-- The position of the buffer of a name. The last buffer of the name wins. -/
def nameToIdx (buffers : List LifetimeBoundBuffer) (name : String) : Option ℕ :=
  (buffers.zipIdx.reverse.find? fun p => p.1.name = name).map Prod.snd

/-- The positions of the declared parents of a buffer. An absent parent imposes no order. -/
def parentIdxs (buffers : List LifetimeBoundBuffer) (i : ℕ) : List ℕ :=
  match buffers[i]? with
  | none => []
  | some child => child.inPlaceParents.filterMap (nameToIdx buffers)

/-- Parents before children, ties broken by the original position. -/
def topologicalSort (buffers : List LifetimeBoundBuffer) :
    Except String (List LifetimeBoundBuffer) :=
  match Kahn.run buffers.length (parentIdxs buffers) buffers.length
      (Kahn.init buffers.length (parentIdxs buffers)) with
  | none => .error "the loop has not ended"
  | some order => do
    let result := order.filterMap (buffers[·]?)
    guardE (result.length = buffers.length) "Cycle detected in in-place parent relationships"
    return result

/-- The priority score, computed in floating point, and the span. -/
def sortKey (parentNames : List String) (b : LifetimeBoundBuffer) : ℚ × ℤ :=
  let span := b.endTime - b.startTime
  let discount : ℚ := (if b.inPlaceParents ≠ [] then 1 / 4 else 0) +
    (if b.name ∈ parentNames then 1 / 4 else 0)
  let uses := Binary64.nearest
    (Binary64.nearest b.uses.length + if b.firstUseIsRead then 0 else 1 / 2)
  (Binary64.nearest (Binary64.nearest (Binary64.nearest span - discount) / uses), span)

/-- The order of the keys as tuples. -/
def keyLe (k l : ℚ × ℤ) : Prop :=
  k.1 < l.1 ∨ k.1 = l.1 ∧ k.2 ≤ l.2

instance : DecidableRel keyLe := fun _ _ =>
  inferInstanceAs (Decidable (_ ∨ _))

/-- The stable sort by key. -/
def sortByKey (buffers : List LifetimeBoundBuffer) : List LifetimeBoundBuffer :=
  buffers.insertionSort fun a b =>
    keyLe (sortKey (buffers.flatMap (·.inPlaceParents)) a)
      (sortKey (buffers.flatMap (·.inPlaceParents)) b)

/-! ## Gaps -/

/-- What an interval leaves of one gap, without remainders below the minimum size. -/
def minus (interval : ℕ × ℕ) (minimumSize : ℕ) (gap : Gap) : List Gap :=
  (if gap.start < interval.1 then
    if gap.stop < interval.1 then
      if gap.start + minimumSize ≤ gap.stop then [⟨gap.start, gap.stop, []⟩] else []
    else if gap.start + minimumSize ≤ interval.1 then [⟨gap.start, interval.1, []⟩] else []
  else []) ++
  (if interval.2 < gap.stop then
    if interval.2 < gap.start then
      if gap.start + minimumSize ≤ gap.stop then [⟨gap.start, gap.stop, []⟩] else []
    else if interval.2 + minimumSize ≤ gap.stop then [⟨interval.2, gap.stop, []⟩] else []
  else [])

/-- Take an interval out of every gap. -/
def allMinus (gaps : List Gap) (interval : ℕ × ℕ) (minimumSize : ℕ) : List Gap :=
  gaps.flatMap (minus interval minimumSize)

section Place

variable (limit alignment : ℕ) (address : String → Option ℕ)

/-- Subtract the slot of one placed buffer, unless it is kept as a reuse candidate or is not
live with `buffer`. -/
def subtract (buffer : LifetimeBoundBuffer) (parentNames : List String) (gaps : List Gap)
    (other : LifetimeBoundBuffer) : List Gap :=
  match address other.name with
  | none => gaps
  | some a =>
    if other.name ∈ parentNames then gaps
    else if other.overlapsInTime buffer then allMinus gaps (a, a + other.size) buffer.size
    else gaps

/-- The declared parents whose slots lie in a gap, in declaration order. -/
def parentsWithin (buffer : LifetimeBoundBuffer) (placed : List LifetimeBoundBuffer)
    (gap : Gap) : List String :=
  buffer.inPlaceParents.filter fun name =>
    match bufByName placed name with
    | none => false
    | some parent =>
      match address parent.name with
      | none => false
      | some a => decide (gap.start ≤ a) && decide (a + parent.size ≤ gap.stop)

/-- The free gaps for a buffer. -/
def buildGaps (buffer : LifetimeBoundBuffer) (placed : List LifetimeBoundBuffer)
    (reuseInPlaceParents : Bool) : List Gap :=
  (placed.foldl (subtract address buffer
      (if reuseInPlaceParents then buffer.inPlaceParents else [])) [⟨0, limit, []⟩]).map
    fun gap => { gap with
      inPlaceParents := gap.inPlaceParents ++ parentsWithin address buffer placed gap }

/-- The two solvers. -/
inductive Policy
  | firstFit
  | bestFit
deriving DecidableEq

/-- A gap holds an aligned block. -/
def fits (size : ℕ) (gap : Gap) : Bool :=
  decide (roundUpToAlignment gap.start alignment + size ≤ gap.stop)

/-- What is left of a gap above an aligned block. -/
def waste (size : ℕ) (gap : Gap) : ℕ :=
  gap.stop - roundUpToAlignment gap.start alignment - size

/-- Keep the tighter of the best gap so far and the next. -/
def tighter (size : ℕ) (best : Option Gap) (gap : Gap) : Option Gap :=
  if fits alignment size gap then
    match best with
    | none => some gap
    | some g => if waste alignment size gap < waste alignment size g then some gap else some g
  else best

/-- The gap of the policy. -/
def pickGap (policy : Policy) (gaps : List Gap) (size : ℕ) : Option Gap :=
  match policy with
  | .firstFit => gaps.find? (fits alignment size)
  | .bestFit => gaps.foldl (tighter alignment size) none

/-- Place one buffer after those of `placed`. -/
def place (policy : Policy) (placed : List LifetimeBoundBuffer) (buffer : LifetimeBoundBuffer) :
    String → Option ℕ :=
  match pickGap alignment policy
      ((buildGaps limit address buffer placed true).filter (·.inPlaceParents ≠ [])) buffer.size with
  | some gap => Function.update address buffer.name (gap.inPlaceParents.head?.bind address)
  | none =>
    match pickGap alignment policy (buildGaps limit address buffer placed false) buffer.size with
    | some gap =>
      Function.update address buffer.name (some (roundUpToAlignment gap.start alignment))
    | none => address

end Place

/-- Place the buffers one after the other. -/
def placeAll (limit alignment : ℕ) (policy : Policy) :
    (String → Option ℕ) → List LifetimeBoundBuffer → List LifetimeBoundBuffer → String → Option ℕ
  | address, _, [] => address
  | address, placed, buffer :: rest =>
    placeAll limit alignment policy (place limit alignment address policy placed buffer)
      (placed ++ [buffer]) rest

/-- Assign addresses. -/
def planLayout (limit alignment : ℕ) (policy : Policy) (buffers : List LifetimeBoundBuffer) :
    Except String (String → Option ℕ) :=
  if buffers = [] then .ok fun _ => none
  else do
    checkInPlaceRelationships buffers
    let filtered := (placeable limit buffers).filter fun b => b.startTime + 1 ≤ b.endTime
    let sorted ← topologicalSort (sortByKey filtered)
    return placeAll limit alignment policy (fun _ => none) [] sorted

end FirstFit

end TorchSpyre
