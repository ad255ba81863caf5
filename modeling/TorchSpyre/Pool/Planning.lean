import Mathlib
import TorchSpyre.Pool.Allocator
import TorchSpyre.Scratchpad

/-!
# Planning the HBM pool of a bundle

`hbm_pool_planning.py`, from the candidates of one bundle on. A candidate lives from its last
write to its last read, or past the end of the bundle if it is never read. Names that share one
allocation object are one storage : they get the union of their ranges and are placed once.
Groups are placed in the order of their starts. Before each, the blocks of groups that ended
earlier are freed. A group that does not fit in the pool is left out.

The candidates are a set in the source, so they come in any order here. `allocId` identifies
the allocation object of a name, and `deviceSize` is the size of its device layout.
-/

namespace TorchSpyre

namespace Pool

/-- A node of a bundle, with the names of the buffers it reads and writes. -/
structure Node where
  reads : List String
  writes : List String
deriving DecidableEq

/-- The first and the last step at which a buffer is needed. -/
structure LiveRange where
  start : ℕ
  stop : ℕ
deriving DecidableEq

/-- The ranges have a step in common. -/
def LiveRange.Meets (r s : LiveRange) : Prop :=
  ∃ t, r.start ≤ t ∧ t ≤ r.stop ∧ s.start ≤ t ∧ t ≤ s.stop

/-! ## Live ranges -/

section Ranges

variable (nodes : List Node) (candidates : List String) (allocId : String → Option ℕ)

/-- The last step at which `names` of a node holds each candidate. -/
def lastStep (names : Node → List String) : String → Option ℕ :=
  nodes.zipIdx.foldl (fun d p => (names p.1).foldl (fun d name =>
    if name ∈ candidates then Function.update d name (some p.2) else d) d) fun _ => none

/-- The range of each candidate that is written. -/
def ownRanges : List (String × LiveRange) :=
  candidates.filterMap fun name =>
    (lastStep nodes candidates Node.writes name).map fun s =>
      (name, ⟨s, (lastStep nodes candidates Node.reads name).getD (nodes.length + 1)⟩)

/-- Widen the range of an allocation object to one more range. -/
def mergeRange (groups : ℕ → Option LiveRange) (item : String × LiveRange) :
    ℕ → Option LiveRange :=
  match allocId item.1 with
  | none => groups
  | some id =>
    let group := (groups id).getD item.2
    Function.update groups id
      (some ⟨min group.start item.2.start, max group.stop item.2.stop⟩)

/-- The merged range of a storage. -/
def groupRange : ℕ → Option LiveRange :=
  (ownRanges nodes candidates).foldl (mergeRange allocId) fun _ => none

/-- The range of each candidate, merged over the names of its storage. -/
def computeLiveRanges : List (String × LiveRange) :=
  (ownRanges nodes candidates).map fun item =>
    (item.1, ((allocId item.1).bind (groupRange nodes candidates allocId)).getD item.2)

end Ranges

/-! ## Groups -/

/-- The order of placement : by start, end and name. -/
def sortLe (p q : String × LiveRange) : Prop :=
  p.2.start < q.2.start ∨ p.2.start = q.2.start ∧
    (p.2.stop < q.2.stop ∨ p.2.stop = q.2.stop ∧ p.1 ≤ q.1)

instance : DecidableRel sortLe := fun _ _ =>
  inferInstanceAs (Decidable (_ ∨ _))

/-- The names of one storage, with their range. The first one stands for the group. -/
structure Group where
  rep : String
  range : LiveRange
  names : List String
deriving DecidableEq

/-- Add a name to the group of `rep`. -/
def Group.join (rep name : String) (g : Group) : Group :=
  if g.rep = rep then { g with names := g.names ++ [name] } else g

/-- The groups so far, and the representative of each storage. -/
structure Grouping where
  groups : List Group
  repOf : ℕ → Option String

/-- Put a name into the group of its storage, or start a group. -/
def addName (allocId : String → Option ℕ) (s : Grouping) (item : String × LiveRange) : Grouping :=
  match (allocId item.1).bind s.repOf with
  | some rep => { s with groups := s.groups.map (Group.join rep item.1) }
  | none =>
    { groups := s.groups ++ [⟨item.1, item.2, [item.1]⟩]
      repOf := match allocId item.1 with
        | none => s.repOf
        | some id => Function.update s.repOf id (some item.1) }

/-- The groups of a bundle, in the order of placement. -/
def allocGroups (nodes : List Node) (candidates : List String) (allocId : String → Option ℕ) :
    List Group :=
  (((computeLiveRanges nodes candidates allocId).insertionSort sortLe).foldl (addName allocId)
    ⟨[], fun _ => none⟩).groups

/-! ## Placement -/

/-- A block to be freed once its range has ended. -/
structure PendingFree where
  stop : ℕ
  block : Block
deriving DecidableEq

/-- A group, its size, and its offset in the pool if it has one. -/
structure Placement where
  group : Group
  size : ℕ
  offset : Option ℕ
deriving DecidableEq

/-- The state of the walk over the ranges. -/
structure PoolState where
  allocator : Allocator
  pendingFrees : List PendingFree
  placements : List Placement
deriving DecidableEq

/-- `HBM_ALLOCATION_ALIGNMENT_BYTES`. -/
def hbmAllocationAlignmentBytes : ℕ :=
  128

/-- The size of a segment. -/
def segmentSize : ℕ :=
  0x400000000

/-- A segment without two GiB for other data. -/
def maxPoolSizeBytes : ℕ :=
  segmentSize - 2 * 1024 ^ 3

/-- The aligned size of a buffer. -/
def computeSizeBytes (deviceSize : String → ℕ) (name : String) : ℕ :=
  roundUpToAlignment (deviceSize name) hbmAllocationAlignmentBytes

namespace PoolState

/-- Free the blocks whose range ended before `start`. -/
def freeBefore (s : PoolState) (start : ℕ) : PoolState :=
  { s with
    allocator := (s.pendingFrees.filter fun p => p.stop < start).foldl
      (fun a p => a.free p.block) s.allocator
    pendingFrees := s.pendingFrees.filter fun p => !decide (p.stop < start) }

/-- Place a group, or leave it out. -/
def place (deviceSize : String → ℕ) (s : PoolState) (g : Group) : PoolState :=
  let s := s.freeBefore g.range.start
  let size := computeSizeBytes deviceSize g.rep
  match s.allocator.allocate size with
  | none => { s with placements := s.placements ++ [⟨g, size, none⟩] }
  | some (offset, allocator) =>
    { allocator := allocator
      pendingFrees := s.pendingFrees ++ [⟨g.range.stop, ⟨offset, size⟩⟩]
      placements := s.placements ++ [⟨g, size, some offset⟩] }

end PoolState

/-- Place groups one after the other in an empty pool. -/
def placeGroups (deviceSize : String → ℕ) (groups : List Group) : PoolState :=
  groups.foldl (PoolState.place deviceSize) ⟨Allocator.new maxPoolSizeBytes, [], []⟩

/-- The plan of a bundle. Its pool extent is the end of the pool. -/
def planBundle (nodes : List Node) (candidates : List String) (allocId : String → Option ℕ)
    (deviceSize : String → ℕ) : PoolState :=
  placeGroups deviceSize (allocGroups nodes candidates allocId)

/-- The bytes that the pool takes. -/
def PoolState.extent (s : PoolState) : ℕ :=
  s.allocator.poolEnd

/-- The offset of a name. -/
def PoolState.offsetOf (s : PoolState) (name : String) : Option ℕ :=
  (s.placements.find? fun p => name ∈ p.group.names).bind Placement.offset

end Pool

end TorchSpyre
