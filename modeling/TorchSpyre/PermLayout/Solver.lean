import Mathlib
import TorchSpyre.Buffer
import TorchSpyre.Timeline
import TorchSpyre.Words

/-!
# The native permutation packer

`csrc/perm_layout_native.cpp`. Given an allocation order, the packer puts every
eligible buffer on top of the earlier eligible buffers that are live at the same
time, unless an in-place partner's slot will do, and evicts it when it would pass
the capacity. The order, the sizes and the eligibility flags change by `swap`,
`rotate`, `resize` and `setEligible`; the layout follows.

`addr_` is valid only where `allocated_` is set, so the two vectors are one map
`address` to an optional integer. The stamped array `cand_mark_` is membership in the
candidate list. Vectors are functions on indices, read below their length only.
Weights are exact rationals.

Addresses and tops are `int64_t`, and a sum that does not fit is undefined. Here sums are exact, and
`overflowed` is set once a pass over the order forms one that does not fit; what the state holds
from then on is not the program's.
-/

namespace TorchSpyre

open Checked

namespace PermLayout

/-- Data fixed by the constructor. -/
structure StaticData where
  n : ℕ
  capacity : ℤ
  alignment : ℤ
  start : ℕ → ℤ
  stop : ℕ → ℤ
  weight : ℕ → ℚ
  overlap : ℕ → List ℕ
  inplacePartners : ℕ → List ℕ
  declaredParents : ℕ → List ℕ
  numIntervals : ℕ
  totalAt : ℕ → ℤ
  bufIntervals : ℕ → ℕ × ℕ

/-- The packer's state. -/
structure Solver where
  st : StaticData
  permutation : List ℕ
  position : ℕ → ℕ
  sizes : ℕ → ℤ
  eligible : ℕ → Bool
  address : ℕ → Option ℤ
  totalQuality : ℚ
  totalAllocatedCount : ℕ
  overflowed : Bool

/-! ## Placement of one buffer -/

section Placement

variable (st : StaticData) (sizes : ℕ → ℤ)

/-- Buffers `x` and `y` are live at a common tick. -/
def overlaps (x y : ℕ) : Bool :=
  decide (st.start x < st.stop y) && decide (st.start y < st.stop x)

/-- Round up to the alignment. Integer division truncates. -/
def alignUp (addr : ℤ) : ℤ :=
  ((addr + st.alignment - 1).tdiv st.alignment) * st.alignment

/-- `(parent, child)` of an in-place pair. -/
def inPlacePair (i j : ℕ) : ℕ × ℕ :=
  if j ∈ st.declaredParents i then (j, i) else (i, j)

/-- Exclusive top of a placed buffer. -/
def top (address : ℕ → Option ℤ) (p : ℕ) : ℤ :=
  (address p).getD 0 + sizes p

/-- Highest top among `cand`, or `base` if that is higher. -/
def maxTop (address : ℕ → Option ℤ) (base : ℤ) (cand : List ℕ) : ℤ :=
  cand.foldl (fun m p => max m (top sizes address p)) base

/-- Put `idx` at `a` unless its top passes the capacity. -/
def gate (idx : ℕ) (a : ℤ) : Option ℤ :=
  if st.capacity < a + sizes idx then none else some a

/-- Try the in-place partners in turn. `some d` is a decision, `none` means that no
partner's slot will do. -/
def tryPartners (address : ℕ → Option ℤ) (idx : ℕ) (cand : List ℕ) :
    List ℕ → Option (Option ℤ)
  | [] => none
  | partner :: rest =>
    if partner ∈ cand then
      let pr := inPlacePair st idx partner
      let partnerAddr := (address partner).getD 0
      if sizes pr.1 < sizes pr.2 then tryPartners address idx cand rest
      else if maxTop sizes address 0 (cand.filter (· ≠ partner)) ≤ partnerAddr then
        some (gate st sizes idx partnerAddr)
      else tryPartners address idx cand rest
    else tryPartners address idx cand rest

/-- The placement rule : where `idx` goes on top of the candidates `cand`, or `none`
if it is evicted. -/
def placeDecision (address : ℕ → Option ℤ) (idx : ℕ) (cand : List ℕ) : Option ℤ :=
  if cand = [] then gate st sizes idx 0
  else if cand.any fun p => (address p).isNone then none
  else
    match tryPartners st sizes address idx cand (st.inplacePartners idx) with
    | some d => d
    | none => gate st sizes idx (alignUp st (maxTop sizes address (-2 ^ 63) cand))

/-- The sums of `AlignUp` and of the comparison with the capacity, for a buffer that rests on
`m`. -/
def stackSums (idx : ℕ) (m : ℤ) : List ℤ :=
  [m + st.alignment, m + st.alignment - 1, alignUp st m, alignUp st m + sizes idx]

/-- The sums of the loop over the in-place partners, and of what follows it. The tops it compares
with are those of the candidates. -/
def partnerSums (address : ℕ → Option ℤ) (idx : ℕ) (cand : List ℕ) : List ℕ → List ℤ
  | [] => stackSums st sizes idx (maxTop sizes address (-2 ^ 63) cand)
  | partner :: rest =>
    let pr := inPlacePair st idx partner
    let partnerAddr := (address partner).getD 0
    if partner ∈ cand ∧ sizes pr.2 ≤ sizes pr.1 ∧
        maxTop sizes address 0 (cand.filter (· ≠ partner)) ≤ partnerAddr then
      [partnerAddr + sizes idx]
    else partnerSums address idx cand rest

/-- The sums of the placement rule. A buffer on the floor is compared by its size alone. -/
def placeSums (address : ℕ → Option ℤ) (idx : ℕ) (cand : List ℕ) : List ℤ :=
  if cand = [] then []
  else if cand.any fun p => (address p).isNone then []
  else
    cand.map (top sizes address) ++ partnerSums st sizes address idx cand (st.inplacePartners idx)

end Placement

/-! ## Recomputing the layout -/

/-- What one pass over the permutation carries : the layout so far, and per timeline
interval the number of buffers seen, whether one was evicted, the highest top, and
whether no later buffer on it can be placed. -/
structure Sweep where
  address : ℕ → Option ℤ
  totalQuality : ℚ
  totalAllocatedCount : ℕ
  placedAt : ℕ → ℤ
  hasNoneAt : ℕ → Bool
  doneAt : ℕ → Bool
  maxTopAt : ℕ → ℤ
  notDone : ℤ

/-- Fresh aggregates; the addresses are still those of the last layout. -/
def initIntervals (s : Solver) : Sweep where
  address := s.address
  totalQuality := 0
  totalAllocatedCount := 0
  placedAt := fun _ => 0
  hasNoneAt := fun _ => false
  doneAt := fun t => decide (s.st.totalAt t = 0)
  maxTopAt := fun _ => 0
  notDone := ((List.range s.st.numIntervals).filter fun t => s.st.totalAt t ≠ 0).length

/-- The candidates of `idx` at position `pos`. -/
def gatherCandidates (s : Solver) (idx pos : ℕ) : List ℕ :=
  (s.st.overlap idx).filter fun w => decide (s.position w < pos) && s.eligible w

/-- Count one more buffer on interval `t`. -/
def commitAt (st : StaticData) (setNone : Bool) (top : ℤ) (sw : Sweep) (t : ℕ) : Sweep :=
  let placed := sw.placedAt t + 1
  let isNone := setNone || sw.hasNoneAt t
  let maxTop := if !setNone && decide (sw.maxTopAt t < top) then top else sw.maxTopAt t
  let fires := !sw.doneAt t && (isNone || decide (placed = st.totalAt t))
  { sw with
    placedAt := Function.update sw.placedAt t placed
    hasNoneAt := Function.update sw.hasNoneAt t isNone
    maxTopAt := Function.update sw.maxTopAt t maxTop
    doneAt := Function.update sw.doneAt t (fires || sw.doneAt t)
    notDone := if fires then sw.notDone - 1 else sw.notDone }

/-- The intervals a buffer is live on. -/
def liveIntervals (st : StaticData) (idx : ℕ) : List ℕ :=
  Timeline.cover (st.bufIntervals idx)

/-- Count `idx` on every interval it is live on. -/
def commitIntervals (st : StaticData) (idx : ℕ) (setNone : Bool) (top : ℤ) (sw : Sweep) :
    Sweep :=
  (liveIntervals st idx).foldl (commitAt st setNone top) sw

/-- The highest aggregate over the intervals, or `none` if one holds an evicted buffer. -/
def scanIntervals (sw : Sweep) : List ℕ → ℤ → Option ℤ
  | [], m => some m
  | t :: ts, m =>
    if sw.hasNoneAt t then none
    else scanIntervals sw ts (if m < sw.maxTopAt t then sw.maxTopAt t else m)

/-- The decision for an eligible buffer : off the aggregates when it has no in-place
partner, by the placement rule otherwise. -/
def decision (s : Solver) (pos idx : ℕ) (sw : Sweep) : Option ℤ :=
  if s.st.inplacePartners idx = [] then
    match scanIntervals sw (liveIntervals s.st idx) 0 with
    | none => none
    | some m => gate s.st s.sizes idx (alignUp s.st m)
  else placeDecision s.st s.sizes sw.address idx (gatherCandidates s idx pos)

/-- The sums of the decision. The top of a buffer that is placed is among them, or its size. -/
def decisionSums (s : Solver) (pos idx : ℕ) (sw : Sweep) : List ℤ :=
  if s.st.inplacePartners idx = [] then
    match scanIntervals sw (liveIntervals s.st idx) 0 with
    | none => []
    | some m => stackSums s.st s.sizes idx m
  else placeSums s.st s.sizes sw.address idx (gatherCandidates s idx pos)

/-- One iteration of the pass. -/
def placeStep (s : Solver) (pos idx : ℕ) (sw : Sweep) : Sweep :=
  if s.eligible idx then
    match decision s pos idx sw with
    | some a =>
      commitIntervals s.st idx false (a + s.sizes idx)
        { sw with
          address := Function.update sw.address idx (some a)
          totalQuality := sw.totalQuality + s.st.weight idx * s.sizes idx
          totalAllocatedCount := sw.totalAllocatedCount + 1 }
    | none =>
      commitIntervals s.st idx true (-1)
        { sw with address := Function.update sw.address idx none }
  else
    commitIntervals s.st idx false (-1)
      { sw with address := Function.update sw.address idx none }

/-- Evict what is left of the permutation. -/
def evictRest (address : ℕ → Option ℤ) (rest : List ℕ) : ℕ → Option ℤ :=
  rest.foldl (fun a i => Function.update a i none) address

/-- The pass from position `pos` on, with the early stop once no interval is open. -/
def recomputeFrom (s : Solver) : ℕ → List ℕ → Sweep → Sweep
  | _, [], sw => sw
  | pos, idx :: rest, sw =>
    if sw.notDone = 0 then { sw with address := evictRest sw.address (idx :: rest) }
    else recomputeFrom s (pos + 1) rest (placeStep s pos idx sw)

/-- The sums of the pass. -/
def passSums (s : Solver) : ℕ → List ℕ → Sweep → List ℤ
  | _, [], _ => []
  | pos, idx :: rest, sw =>
    if sw.notDone = 0 then []
    else
      (if s.eligible idx then decisionSums s pos idx sw else []) ++
        passSums s (pos + 1) rest (placeStep s pos idx sw)

/-- Rebuild the layout for the current order, sizes and flags. -/
def recomputeAll (s : Solver) : Solver :=
  let sw := recomputeFrom s 0 s.permutation (initIntervals s)
  { s with
    address := sw.address
    totalQuality := sw.totalQuality
    totalAllocatedCount := sw.totalAllocatedCount
    overflowed := s.overflowed ||
      (passSums s 0 s.permutation (initIntervals s)).any fun v => !decide (Words.Fits v) }

/-! ## Construction -/

/-- Write the position of each entry of the permutation at the positions `ps`. -/
def renumber (permutation : List ℕ) (ps : List ℕ) (position : ℕ → ℕ) : ℕ → ℕ :=
  ps.foldl (fun pos p => Function.update pos (permutation.getD p 0) p) position

/-- The iteration order of a hash set of indices, as a function of what was inserted into
it. Any order of the distinct elements is possible. -/
structure SetOrder where
  enum : List ℕ → List ℕ
  enum_perm : ∀ l, (enum l).Perm l.dedup

section Construct

variable (buffers : List LifetimeBoundBuffer)

/-- A field of buffer `i`. -/
def field {α : Type} (f : LifetimeBoundBuffer → α) (default : α) (i : ℕ) : α :=
  (buffers[i]?.map f).getD default

/-- The index a name resolves to. -/
def nameToIdx (name : String) : Option ℕ :=
  (buffers.map (·.name)).idxOf? name

/-- The indices of the declared parents of `i` that are among the buffers. -/
def declaredParentsOf (i : ℕ) : List ℕ :=
  (field buffers (·.inPlaceParents) [] i).filterMap (nameToIdx buffers)

/-- What is inserted into the partner set of `i` : its declared parents and the children
that declare it. -/
def partnerSet (i : ℕ) : List ℕ :=
  (List.range buffers.length).flatMap fun child =>
    (declaredParentsOf buffers child).flatMap fun parent =>
      (if child = i then [parent] else []) ++ (if parent = i then [child] else [])

/-- The sorted unique lifetime endpoints. -/
def intervalPoints : List ℤ :=
  Timeline.cutPoints (buffers.map (·.startTime) ++ buffers.map (·.endTime))

/-- The intervals buffer `i` is live on, as a range `[lo, hi)`. -/
def bufIntervalsOf (i : ℕ) : ℕ × ℕ :=
  if (intervalPoints buffers).length - 1 = 0 then (0, 0)
  else
    (Timeline.bisectLeft (intervalPoints buffers) (field buffers (·.startTime) 0 i),
      Timeline.bisectLeft (intervalPoints buffers) (field buffers (·.endTime) 0 i))

/-- How many buffers are live on each interval. -/
def totalAtOf : ℕ → ℤ :=
  Timeline.runningTotal (Timeline.deltas (fun i => (bufIntervalsOf buffers i).1)
    (fun i => (bufIntervalsOf buffers i).2) (List.range buffers.length) fun _ => 0)

/-- Uses, and half a use for a first use that is a write. -/
def bufferWeight (b : LifetimeBoundBuffer) : ℚ :=
  b.uses.length + if b.firstUseIsRead then 0 else 1 / 2

/-- The data derived from the buffers. -/
def staticData (order : SetOrder) (capacity alignment : ℤ) : StaticData where
  n := buffers.length
  capacity := capacity
  alignment := alignment
  start := field buffers (·.startTime) 0
  stop := field buffers (·.endTime) 0
  weight := field buffers bufferWeight 0
  overlap := fun i => (List.range buffers.length).filter fun w =>
    decide (w ≠ i) &&
      (decide (field buffers (·.startTime) 0 i < field buffers (·.endTime) 0 w) &&
        decide (field buffers (·.startTime) 0 w < field buffers (·.endTime) 0 i))
  inplacePartners := fun i => order.enum (partnerSet buffers i)
  declaredParents := declaredParentsOf buffers
  numIntervals := (intervalPoints buffers).length - 1
  totalAt := totalAtOf buffers
  bufIntervals := bufIntervalsOf buffers

/-- The reads of buffer `i`'s fields, in order. -/
def readFields (i : ℕ) (b : LifetimeBoundBuffer) : Except String Unit := do
  let unreadable :=
    s!"buffer {i}: could not read fields (name, size, uses, first_use_is_read, in_place_parents)"
  guardE (Words.Fits b.size) unreadable
  checkAll (fun u => guardE (Words.Fits u) unreadable) b.uses
  guardE (b.lastUse ≠ 2 ^ 63 - 1) s!"buffer {i}: last use must be below INT64_MAX"
  guardE (Words.Fits b.startTime) unreadable
  guardE (Words.Fits b.endTime) unreadable

/-- The checks on one resolved in-place pair. -/
def checkHandOver (parent child : LifetimeBoundBuffer) : Except String Unit := do
  let pn := parent.name
  let cn := child.name
  let pe := parent.endTime
  let cs := child.startTime
  guardE (parent.canHandOver = true)
    (s!"in-place parent {pn} is a computed buffer that is never read, so it cannot hand its " ++
      s!"storage to child {cn}")
  guardE (parent.endTime = child.startTime + 1)
    (s!"in-place pair ({pn}, {cn}) must hand off at a single tick: parent end_time {pe} != " ++
      s!"child start_time {cs} + 1")

/-- The dynamic state before the first layout. -/
def initial (st : StaticData) (permutation : List ℕ) (flags : List Bool) : Solver where
  st := st
  permutation := permutation
  position := renumber permutation (List.range buffers.length) fun _ => 0
  sizes := field buffers (fun b => (b.size : ℤ)) 0
  eligible := fun i => flags.getD i false
  address := fun _ => none
  totalQuality := 0
  totalAllocatedCount := 0
  overflowed := false

/-- The flags, all set when none are given. -/
def initialFlags (eligible : Option (List Bool)) : List Bool :=
  eligible.getD (List.replicate buffers.length true)

/-- The constructor. -/
def construct (order : SetOrder) (permutation : List ℤ) (capacity alignment : ℤ)
    (eligible : Option (List Bool)) : Except String Solver := do
  guardE (0 < alignment) "alignment must be positive"
  guardE (permutation.insertionSort (· ≤ ·) = (List.range buffers.length).map (↑))
    "permutation must be a permutation of range(len(buffers))"
  checkAll (fun p => readFields p.2 p.1) buffers.zipIdx
  guardE (UniquelyNamed buffers) "buffer names must be unique"
  checkAll (fun child => checkAll (fun name =>
    match bufByName buffers name with
    | none => .ok ()
    | some parent => checkHandOver parent child) child.inPlaceParents) buffers
  let flags := initialFlags buffers eligible
  guardE (flags.length = buffers.length) "eligible must have one flag per buffer"
  return recomputeAll
    (initial buffers (staticData buffers order capacity alignment) (permutation.map Int.toNat)
      flags)

end Construct

/-! ## The calls -/

/-- `std::rotate` : exchange the ranges `[a, b)` and `[b, c)`. -/
def rotateRange (l : List ℕ) (a b c : ℕ) : List ℕ :=
  l.take a ++ (l.take c).drop b ++ (l.take b).drop a ++ l.drop c

/-- Move the entry at `i` to `j` by rotating the range between them by one. -/
def moveEntry (l : List ℕ) (i j : ℕ) : List ℕ :=
  if i < j then rotateRange l i (i + 1) (j + 1) else rotateRange l j i (i + 1)

/-- Move the entry at `i` to `j` and renumber the entries in between. -/
def moveInPermutation (s : Solver) (i j : ℕ) : Solver :=
  let perm := moveEntry s.permutation i j
  let lo := min i j
  let hi := max i j
  { s with
    permutation := perm
    position := renumber perm (List.range' lo (hi + 1 - lo)) s.position }

/-- Swap the entries at `i` and `i + 1`. -/
def swap (s : Solver) (i : ℤ) : Except String (ℚ × Solver) :=
  if i < 0 ∨ (s.st.n : ℤ) - 1 ≤ i then .error "swap index out of range"
  else
    let k := i.toNat
    let x := s.permutation.getD k 0
    let y := s.permutation.getD (k + 1) 0
    let s' := { s with
      permutation := (s.permutation.set k y).set (k + 1) x
      position := Function.update (Function.update s.position x (k + 1)) y k }
    if !(s.eligible x && s.eligible y) then .ok (0, s')
    else if !overlaps s.st x y then .ok (0, s')
    else
      let s'' := recomputeAll s'
      .ok (s''.totalQuality - s.totalQuality, s'')

/-- Move the entry at `i` to `j`. -/
def rotate (s : Solver) (i j : ℤ) : Except String (ℚ × Solver) :=
  if i < 0 ∨ (s.st.n : ℤ) ≤ i ∨ j < 0 ∨ (s.st.n : ℤ) ≤ j then
    .error "rotate index out of range"
  else if i = j then .ok (0, s)
  else
    let s' := moveInPermutation s i.toNat j.toNat
    if !s.eligible (s.permutation.getD i.toNat 0) then .ok (0, s')
    else
      let s'' := recomputeAll s'
      .ok (s''.totalQuality - s.totalQuality, s'')

/-- Change the footprint of buffer `idx`. -/
def resize (s : Solver) (idx newSize : ℤ) : Except String (ℚ × Solver) :=
  if idx < 0 ∨ (s.st.n : ℤ) ≤ idx then .error "resize index out of range"
  else if newSize < 0 then .error "resize size must be non-negative"
  else
    let k := idx.toNat
    if s.sizes k = newSize then .ok (0, s)
    else
      let s' := { s with sizes := Function.update s.sizes k newSize }
      if !s.eligible k then .ok (0, s')
      else
        let s'' := recomputeAll s'
        .ok (s''.totalQuality - s.totalQuality, s'')

/-- Change the eligibility flag of buffer `idx`. -/
def setEligible (s : Solver) (idx : ℤ) (flag : Bool) : Except String (ℚ × Solver) :=
  if idx < 0 ∨ (s.st.n : ℤ) ≤ idx then .error "set_eligible index out of range"
  else
    let k := idx.toNat
    if s.eligible k = flag then .ok (0, s)
    else
      let s' := recomputeAll { s with eligible := Function.update s.eligible k flag }
      .ok (s'.totalQuality - s.totalQuality, s')

/-- The mutating calls. -/
inductive Call where
  | swap (i : ℤ)
  | rotate (i j : ℤ)
  | resize (idx newSize : ℤ)
  | setEligible (idx : ℤ) (flag : Bool)

/-- One call : the change it returns and the state after it, or the exception. -/
def call (s : Solver) : Call → Except String (ℚ × Solver)
  | .swap i => swap s i
  | .rotate i j => rotate s i j
  | .resize idx newSize => resize s idx newSize
  | .setEligible idx flag => setEligible s idx flag

/-- The state after a call. A call that throws has changed nothing. -/
def step (s : Solver) (c : Call) : Solver :=
  match call s c with
  | .ok (_, s') => s'
  | .error _ => s

/-- The state after a sequence of calls. -/
def run (s : Solver) (cs : List Call) : Solver :=
  cs.foldl step s

/-- The addresses, by buffer. -/
def addresses (s : Solver) : List (Option ℤ) :=
  (List.range s.st.n).map s.address

end PermLayout

end TorchSpyre
