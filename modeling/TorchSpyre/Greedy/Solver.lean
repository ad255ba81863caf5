import Mathlib
import TorchSpyre.Buffer
import TorchSpyre.Timeline
import TorchSpyre.Binary64
import TorchSpyre.Spans

/-!
# The greedy layout solver

`scratchpad/greedy_solver.py`. The solver walks the ticks at which a lifetime starts or
ends. At each it drops the buffers that have ended from the usage table, then places the
buffers that start : on the slot of a declared in-place parent that has not been handed on
yet, else at address zero below everything in use, else above everything in use, else in
the first gap. The members of a paired group are placed together when the first of them
starts, or not at all.

Buffers are mutable objects in the source; here the addresses are a map on names.
-/

namespace TorchSpyre

open Checked

namespace Greedy

/-- The planning state. `rejected` names the members of groups that have been given up. -/
structure State where
  usage : List LifetimeBoundBuffer
  address : String → Option ℕ
  reusedParents : List String
  rejected : List String

section Block

variable (limit alignment : ℕ) (s : State)

/-- The span of each placed entry of the usage table. -/
def usageSpans : List (ℕ × ℕ) :=
  s.usage.filterMap fun b => (s.address b.name).map fun a => (a, a + b.size)

/-- `_get_lowest_addr_in_use`. -/
def getLowestAddrInUse : ℕ :=
  ((usageSpans s).map Prod.fst).min?.getD 0

/-- `_get_highest_addr_in_use`. -/
def getHighestAddrInUse : ℕ :=
  ((usageSpans s).map Prod.snd).max?.getD 0

/-- The order of Python tuples. -/
def tupleLe (p q : ℕ × ℕ) : Prop :=
  p.1 < q.1 ∨ p.1 = q.1 ∧ p.2 ≤ q.2

instance : DecidableRel tupleLe := fun _ _ =>
  inferInstanceAs (Decidable (_ ∨ _))

/-- Merged spans currently in use. -/
def occupiedSpans : List (ℕ × ℕ) :=
  Spans.merge ((usageSpans s).insertionSort tupleLe)

/-- `math.ceil(addr / alignment) * alignment`. -/
def alignUp (addr : ℕ) : ℕ :=
  Binary64.ceilDiv addr alignment * alignment

/-- An address for a new block, or `none` if there is no room. -/
def freeBlock (sizeNeeded : ℕ) : Option ℕ :=
  if limit < sizeNeeded then none
  else if s.usage = [] ∨ sizeNeeded ≤ getLowestAddrInUse s then some 0
  else if alignUp alignment (getHighestAddrInUse s) + sizeNeeded ≤ limit then
    some (alignUp alignment (getHighestAddrInUse s))
  else Spans.firstGap (alignUp alignment) sizeNeeded (occupiedSpans s)

/-- The search asserts that every entry of the usage table has an address. -/
def findFreeBlock (sizeNeeded : ℕ) : Except String (Option ℕ) := do
  guardE ((s.usage.all fun b => (s.address b.name).isSome) = true) "AssertionError"
  return freeBlock limit alignment s sizeNeeded

end Block

/-! ## Placing buffers -/

section Allocate

variable (limit alignment : ℕ)

/-- The first declared parent whose slot can be taken : not handed on before, in use, and
large enough. -/
def inPlaceParent (s : State) (buffer : LifetimeBoundBuffer) :
    List String → Option LifetimeBoundBuffer
  | [] => none
  | name :: names =>
    if name ∈ s.reusedParents then inPlaceParent s buffer names
    else
      match s.usage.find? fun u => u.name = name with
      | none => inPlaceParent s buffer names
      | some u => if buffer.size ≤ u.size then some u else inPlaceParent s buffer names

/-- Place a buffer over an in-place parent or in a free block. -/
def tryAllocateOne (s : State) (buffer : LifetimeBoundBuffer) : Except String State :=
  match inPlaceParent s buffer buffer.inPlaceParents with
  | some parent =>
    .ok { s with
      address := Function.update s.address buffer.name (s.address parent.name)
      usage := s.usage ++ [buffer]
      reusedParents := parent.name :: s.reusedParents }
  | none => do
    match ← findFreeBlock limit alignment s buffer.size with
    | some addr =>
      return { s with
        address := Function.update s.address buffer.name (some addr)
        usage := s.usage ++ [buffer] }
    | none => return { s with address := Function.update s.address buffer.name none }

/-- Place the members one after the other. The first that finds no room gives up the group :
the usage table and the handed-on parents are those before the group again. -/
def tryAllocateGroup (before : State) (group : List LifetimeBoundBuffer) :
    State → List LifetimeBoundBuffer → Except String State
  | s, [] => .ok s
  | s, member :: rest => do
    let s' ← tryAllocateOne limit alignment s member
    if (s'.address member.name).isSome then tryAllocateGroup before group s' rest
    else
      return {
        usage := before.usage
        reusedParents := before.reusedParents
        rejected := s'.rejected ++ group.map (·.name)
        address := fun n => if n ∈ group.map (·.name) then none else s'.address n }

/-- Place a buffer, with its group if it has one. -/
def tryAllocate (groupByName : String → Option (List LifetimeBoundBuffer)) (s : State)
    (buffer : LifetimeBoundBuffer) : Except String State :=
  if (s.address buffer.name).isSome ∨ buffer.name ∈ s.rejected then .ok s
  else
    match groupByName buffer.name with
    | none => tryAllocateOne limit alignment s buffer
    | some group => tryAllocateGroup limit alignment s group s group

/-- Free a buffer. -/
def tryDeallocate (s : State) (buffer : LifetimeBoundBuffer) : State :=
  { s with usage := s.usage.erase buffer }

end Allocate

/-! ## Paired groups -/

/-- The group of each member, and the members of groups rejected from the start. -/
structure Groups where
  byName : String → Option (List LifetimeBoundBuffer)
  rejected : List String

/-- Enter the members of one group, each of which must be in the solve and in no other
group. -/
def addMembers (buffers group : List LifetimeBoundBuffer) :
    List String → (String → Option (List LifetimeBoundBuffer)) →
      Except String (String → Option (List LifetimeBoundBuffer))
  | [], byName => .ok byName
  | name :: names, byName => do
    guardE ((bufByName buffers name).isSome = true) s!"paired buffer {name} is not in this solve"
    guardE ((byName name).isNone = true) s!"buffer {name} belongs to multiple paired groups"
    addMembers buffers group names (Function.update byName name (some group))

/-- Enter the group of a root. -/
def addGroup (buffers placeable : List LifetimeBoundBuffer) (g : Groups)
    (root : LifetimeBoundBuffer) : Except String Groups :=
  if root.pairedWith = [] then .ok g
  else do
    let rn := root.name
    let names := root.name :: root.pairedWith
    guardE names.Nodup s!"paired-buffer group for {rn} contains duplicates"
    let group := root :: root.pairedWith.filterMap (bufByName buffers)
    let byName ← addMembers buffers group names g.byName
    return {
      byName := byName
      rejected := if group.any fun m => m.name ∉ placeable.map (·.name) then
          g.rejected ++ group.map (·.name) else g.rejected }

/-- All groups of a solve. -/
def pairedGroups (buffers placeable : List LifetimeBoundBuffer) : Except String Groups :=
  foldE (addGroup buffers placeable) ⟨fun _ => none, []⟩ buffers

/-! ## The walk -/

section Plan

variable (limit alignment : ℕ)

/-- One tick : drop what has ended, then place what starts. -/
def tick (groupByName : String → Option (List LifetimeBoundBuffer))
    (placeable : List LifetimeBoundBuffer) (s : State) (idx : ℤ) : Except String State :=
  foldE (tryAllocate limit alignment groupByName)
    (placeable.foldl (fun s b => if idx = b.endTime then tryDeallocate s b else s) s)
    (placeable.filter fun b => idx = b.startTime)

/-- The ticks at which a lifetime starts or ends. -/
def sortedTimes (placeable : List LifetimeBoundBuffer) : List ℤ :=
  Timeline.cutPoints (placeable.map (·.startTime) ++ placeable.map (·.endTime))

/-- Assign addresses. -/
def planLayout (buffers : List LifetimeBoundBuffer) : Except String (String → Option ℕ) :=
  if buffers = [] then .ok fun _ => none
  else do
    checkInPlaceRelationships buffers
    if placeable limit buffers = [] then return fun _ => none
    else do
      let groups ← pairedGroups buffers (placeable limit buffers)
      let s ← foldE (tick limit alignment groups.byName (placeable limit buffers))
        ⟨[], fun _ => none, [], groups.rejected⟩ (sortedTimes (placeable limit buffers))
      return s.address

end Plan

end Greedy

end TorchSpyre
