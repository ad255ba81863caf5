import Mathlib
import TorchSpyre.Traced
import TorchSpyre.FirstFit.Solver
import TorchSpyre.Annealer.Problem

/-!
# The annealing engine

The moves and the loop of `SaCoOptimizingSolver`. A state is a packer and a vector of
divisions, both of them objects that moves change in place, and the number of eligible
buffers. A snapshot copies both objects. Adopting a snapshot makes its objects the live ones
without copying, so objects are kept in a heap here and the live state and the snapshots are
references into it.

The engine marks its state after every move, every snapshot and every adoption. Whether a
worse state is accepted depends on a temperature in the source ; here any outcome of that draw
is possible. The search starts from the order of a first-fit pass, and what it ends with is
written back as a position in every buffer's list of divisions.
-/

namespace TorchSpyre

open Checked Traced

namespace Annealer

/-- The packers and vectors of divisions that were made, by reference. -/
structure Heap where
  packers : ℕ → PermLayout.Solver
  vectors : ℕ → Divisions
  next : ℕ

/-- A packer, a vector of divisions, and its number of eligible buffers. -/
structure Snap where
  packer : ℕ
  chosen : ℕ
  nEligible : ℤ
deriving DecidableEq

/-- The state of the search. `taken` is what the live state was when the best snapshot was
taken, which the source does not keep : it is here to say that the snapshot stays so. -/
structure Engine where
  heap : Heap
  packer : ℕ
  chosen : ℕ
  nEligible : ℤ
  bestScore : ℤ
  bestSnap : Snap
  taken : PermLayout.Solver × Divisions
  rng : Rng

namespace Engine

/-- The live packer. -/
def solver (e : Engine) : PermLayout.Solver :=
  e.heap.packers e.packer

/-- The live vector of divisions. -/
def divisions (e : Engine) : Divisions :=
  e.heap.vectors e.chosen

/-- Put `s` in place of the live packer. -/
def setSolver (e : Engine) (s : PermLayout.Solver) : Engine :=
  { e with heap := { e.heap with packers := Function.update e.heap.packers e.packer s } }

/-- Put `v` in place of the live vector. -/
def setDivisions (e : Engine) (v : Divisions) : Engine :=
  { e with heap := { e.heap with vectors := Function.update e.heap.vectors e.chosen v } }

@[simp] theorem solver_setSolver (e : Engine) (s : PermLayout.Solver) :
    (e.setSolver s).solver = s :=
  Function.update_self _ _ _

@[simp] theorem divisions_setSolver (e : Engine) (s : PermLayout.Solver) :
    (e.setSolver s).divisions = e.divisions :=
  rfl

@[simp] theorem divisions_setDivisions (e : Engine) (v : Divisions) :
    (e.setDivisions v).divisions = v :=
  Function.update_self _ _ _

@[simp] theorem solver_setDivisions (e : Engine) (v : Divisions) :
    (e.setDivisions v).solver = e.solver :=
  rfl

end Engine

/-! ## Draws -/

/-- The next number of the generator. -/
def draw : Prog Engine ℕ := fun e =>
  (e.rng.next.1, { e with rng := e.rng.next.2 }, [])

/-- A number below `n`. -/
def randrange (n : ℕ) : Prog Engine ℕ := do
  let k ← draw
  pure (k % n)

/-- An element of a list. -/
def choice {α : Type} (l : List α) : Prog Engine (Option α) := do
  let k ← randrange l.length
  pure l[k]?

/-- The index that a draw below the sum of the weights falls on. -/
def pickIndex : List ℕ → ℕ → ℕ
  | [], _ => 0
  | w :: ws, k => if k < w then 0 else pickIndex ws (k - w) + 1

/-- A draw of an index by weight. -/
def choices (weights : List ℕ) : Prog Engine ℕ := do
  let k ← randrange weights.sum
  pure (pickIndex weights k)

/-- A draw against some probability. -/
def coin : Prog Engine Bool := do
  let k ← draw
  pure (k % 2 = 0)

/-! ## The packer -/

/-- What a call of the packer returns. -/
def callResult (s : PermLayout.Solver) (c : PermLayout.Call) : ℚ :=
  match PermLayout.call s c with
  | .ok (q, _) => q
  | .error _ => 0

/-- A call of the live packer. -/
def call (c : PermLayout.Call) : Prog Engine ℚ := fun e =>
  (callResult e.solver c, e.setSolver (PermLayout.step e.solver c), [])

/-- Move a buffer in the order. -/
def rotate (i j : ℕ) : Prog Engine ℚ := do
  let q ← call (.rotate i j)
  mark
  pure q

/-- Swap two neighbours of the order. -/
def swap (i : ℕ) : Prog Engine ℚ := do
  let q ← call (.swap i)
  mark
  pure q

variable (P : Problem)

/-- `_score` of the live state. -/
def liveScore (e : Engine) : ℤ :=
  P.score e.divisions e.solver.address

/-- `_all_eligible_resident`. -/
def allEligibleResident (e : Engine) : Bool :=
  decide ((e.solver.totalAllocatedCount : ℤ) = e.nEligible)

/-! ## Changing divisions -/

/-- Refresh the flags of the buffers listed, and count the eligible ones. -/
def refresh : List ℕ → Prog Engine ℤ
  | [] => pure 0
  | x :: l => do
    let e ← get
    let flag := P.eligible e.divisions x
    let _ ← call (.setEligible x flag)
    let rest ← refresh l
    pure ((if flag then 1 else 0) + rest)

/-- The buffers listed and their parents, in order. -/
def affected (changed : ℕ → Bool) : List ℕ :=
  (List.range P.n).filter fun x =>
    changed x || (List.range P.n).any fun c => changed c && decide (x ∈ P.parentsIdx c)

/-- `_atomic_flip`. -/
def atomicFlip (idx : ℕ) (config : DivisionConfig) : Prog Engine Unit := do
  let e ← get
  let xs := affected P fun x => x = idx
  let before := P.countEligible e.divisions xs
  modify fun e => e.setDivisions (Function.update e.divisions idx config)
  let _ ← call (.resize idx (P.perCoreSize idx config))
  let after ← refresh P xs
  modify fun e => { e with nEligible := e.nEligible + (after - before) }
  mark

/-- A dictionary from buffers to divisions. -/
abbrev Assignment := ℕ → Option DivisionConfig

/-- `_apply_assignment`. -/
def applyAssignment (a : Assignment) : Prog Engine Unit := do
  let e ← get
  let xs := affected P fun x => (a x).isSome
  let before := P.countEligible e.divisions xs
  modify fun e => e.setDivisions fun x => (a x).getD (e.divisions x)
  forEach (fun x : ℕ => do
    let e ← get
    let _ ← call (.resize x (P.perCoreSize x (e.divisions x)))
    pure ()) ((List.range P.n).filter fun x => (a x).isSome)
  let after ← refresh P xs
  modify fun e => { e with nEligible := e.nEligible + (after - before) }
  mark

/-! ## A boundary of a run -/

/-- `_tile_readers` : the later buffers that read the one at a position. -/
def tileReadersAt (producer : ℕ) : List (ℕ × TileReads) :=
  (List.range (nPositions P.runBufs)).flatMap fun reader =>
    ((tileReadsAt P.runBufs reader).filter fun r => r.1 = producer).map fun r => (reader, r.2)

/-- `_misread_across`. -/
def misreadAcross (at' start : ℕ) (spec : TileSpec) (forward : Bool) : Bool :=
  if spec.isUntiled then false
  else
    let edges := if forward then (tileReadsAt P.runBufs at').filter fun r => start ≤ r.1
      else (tileReadersAt P at').filter fun r => r.1 ≤ start
    edges.any fun r => !r.2.aligned P.misread spec spec

/-- The walk of `_retile_boundary` from a position to an end of its run, or to the first buffer
that refuses the tiling. -/
def retileWalk (chosen : Divisions) (tiling : TileSpec) (forward : Bool) (position stop : ℕ) :
    ℕ → ℕ → Assignment → Assignment
  | 0, _, a => a
  | fuel + 1, at', a =>
    match bufferAt P.runBufs at' with
    | none => a
    | some target =>
      if decide (at' ≠ position) && misreadAcross P at' position tiling forward then a
      else
        match P.bufs[target]?.bind fun b => b.retiled (chosen target) tiling with
        | none => a
        | some retiled =>
          let a' := Function.update a target (some retiled)
          if at' = stop then a'
          else retileWalk chosen tiling forward position stop fuel
            (if forward then at' + 1 else at' - 1) a'

/-- `_retile_boundary`. The walk takes at most one step for each position of the run. -/
def retileBoundary (idx : ℕ) (config : DivisionConfig) : Prog Engine Unit := do
  let e ← get
  match P.positionOf idx with
  | none => pure ()
  | some position =>
    let bounds := P.runBounds e.divisions position
    let forward ← coin
    let a := retileWalk P e.divisions config.tiling forward position
      (if forward then bounds.2 else bounds.1) (bounds.2 + 1 - bounds.1) position fun _ => none
    if ((List.range P.n).any fun x => (a x).isSome) then applyAssignment P a else pure ()

/-! ## Recoloring a region -/

/-- The assignment so far, and the buffers whose neighbours are still to be looked at. -/
structure Flood where
  assignment : Assignment
  frontier : List ℕ

/-- Let a buffer join unless it has. -/
def Flood.join (f : Flood) (v : ℕ) (joined : Option DivisionConfig) : Flood :=
  match f.assignment v, joined with
  | none, some c =>
    { assignment := Function.update f.assignment v (some c), frontier := v :: f.frontier }
  | _, _ => f

/-- Look at the children and the parents of `u`. -/
def Flood.spread (f : Flood) (u : ℕ) : Flood :=
  let down := (P.childrenIdx u).foldl (fun f c =>
    f.join c ((P.relation u c).bind fun r => (f.assignment u).bind r.childFor)) f
  ((P.parentsIdx u).insertionSort (· ≤ ·)).foldl (fun f p =>
    f.join p ((P.relation p u).bind fun r => (f.assignment u).bind r.parentFor)) down

/-- Take the least buffer of the frontier until it is empty. -/
def floodLoop : ℕ → Flood → Flood
  | 0, f => f
  | fuel + 1, f =>
    match f.frontier.min? with
    | none => f
    | some u => floodLoop fuel (Flood.spread P { f with frontier := f.frontier.erase u } u)

/-- `_flood_region`. A buffer enters the frontier once. -/
def floodRegion (anchor : ℕ) (config : DivisionConfig) : Assignment :=
  (floodLoop P P.n
    { assignment := Function.update (fun _ => none) anchor (some config)
      frontier := [anchor] }).assignment

/-- `_trim_tilings_to_anchor_run` : outside the anchor's run no tiling stays. -/
def trimTilingsToAnchorRun (chosen : Divisions) (anchor : ℕ) (a : Assignment) : Assignment :=
  let inRun : ℕ → Bool :=
    match P.positionOf anchor with
    | none => fun _ => false
    | some position =>
      let bounds := P.runBounds (fun x => (a x).getD (chosen x)) position
      fun idx => match P.positionOf idx with
        | none => false
        | some at' => decide (bounds.1 ≤ at') && decide (at' ≤ bounds.2)
  fun idx => (a idx).map fun config =>
    if config.tiling.isUntiled || inRun idx then config
    else (P.bufs[idx]?.bind fun b => b.retiled config {}).getD config

/-- The loop of `_burst`. -/
def burstLoop : ℕ → Prog Engine Unit
  | 0 => pure ()
  | k + 1 => do
    let e ← get
    if allEligibleResident e then pure ()
    else
      let i ← randrange P.n
      let j ← randrange P.n
      let q ← rotate i j
      if q < 0 then
        let _ ← rotate j i
        burstLoop k
      else burstLoop k

/-- `_burst` : rotations that do not lower the quality are kept. -/
def burst : Prog Engine Unit :=
  if P.n < 2 then pure () else burstLoop P (max 1 (P.n / 10))

/-- The division an anchor is recolored to. -/
def drawAnchor (idx : ℕ) : Prog Engine (Option DivisionConfig) := fun e =>
  match P.bufs[idx]? with
  | none => (none, e, [])
  | some b =>
    ((b.anchor (e.divisions idx) e.rng).1,
      { e with rng := (b.anchor (e.divisions idx) e.rng).2 }, [])

/-- `_anchor_candidates`. -/
def anchorCandidates : List ℕ :=
  (List.range P.n).filter fun i => (P.bufs[i]?.map CoreDivisionBuffer.canSplit).getD false

/-- `_recolor`. -/
def recolor : Prog Engine Unit := do
  let anchor ← choice (anchorCandidates P)
  match anchor with
  | none => pure ()
  | some anchor =>
    let config ← drawAnchor P anchor
    match config with
    | none => pure ()
    | some config =>
      let e ← get
      applyAssignment P
        (trimTilingsToAnchorRun P e.divisions anchor (floodRegion P anchor config))
      burst P

/-! ## Snapshots -/

/-- `_snapshot` : copies of the live packer and the live vector. -/
def snapshot : Prog Engine Snap := fun e =>
  (⟨e.heap.next, e.heap.next, e.nEligible⟩,
    { e with heap :=
      { packers := Function.update e.heap.packers e.heap.next e.solver
        vectors := Function.update e.heap.vectors e.heap.next e.divisions
        next := e.heap.next + 1 } }, [])

/-- `_adopt` : the objects of the snapshot become the live ones. -/
def adopt (snap : Snap) : Prog Engine Unit := do
  modify fun e =>
    { e with packer := snap.packer, chosen := snap.chosen, nEligible := snap.nEligible }
  mark

/-- Keep the live state as the best one seen. -/
def keepBest (score : ℤ) : Prog Engine Unit := do
  modify fun e => { e with bestScore := score }
  let snap ← snapshot
  modify fun e => { e with bestSnap := snap, taken := (e.solver, e.divisions) }
  mark

/-- The test of a change of the score. What raises it may be accepted. -/
def metropolis (delta : ℤ) : Prog Engine Bool :=
  if delta ≤ 0 then pure true else coin

/-- Go on from the live state. -/
def accept (score : ℤ) : Prog Engine ℤ := do
  let e ← get
  if score < e.bestScore then
    keepBest score
    pure score
  else pure score

/-! ## Steps -/

/-- The kinds of moves. -/
inductive Move where
  | reorder
  | flip
  | recolor
deriving DecidableEq

/-- `_MOVE_WEIGHTS`, in tenths. -/
def Move.weight : Move → ℕ
  | .reorder => 5
  | .flip => 3
  | .recolor => 2

/-- `_flippable`. -/
def flippable : List ℕ :=
  (List.range P.n).filter fun i => (P.bufs[i]?.map CoreDivisionBuffer.canMove).getD false

/-- `_applicable_moves`. -/
def applicableMoves (e : Engine) : List Move :=
  (if 2 ≤ P.n ∧ allEligibleResident e = false then [.reorder] else []) ++
    (if flippable P = [] then [] else [.flip]) ++
    if anchorCandidates P = [] then [] else [.recolor]

/-- `_choose_move`. -/
def chooseMove : Prog Engine (Option Move) := do
  let e ← get
  let applicable := applicableMoves P e
  if applicable = [] then pure none
  else
    let k ← choices (applicable.map Move.weight)
    pure applicable[k]?

/-- The flip of `_execute_move`. -/
def flip : Prog Engine Unit := do
  let idx ← choice (flippable P)
  match idx with
  | none => pure ()
  | some idx =>
    let e ← get
    let options := (P.bufs[idx]?.map fun b => b.neighbours (e.divisions idx)).getD []
    if options = [] then pure ()
    else
      let config ← choice options
      match config with
      | none => pure ()
      | some config =>
        if config.tiling = (e.divisions idx).tiling then atomicFlip P idx config
        else retileBoundary P idx config
        burst P

/-- `_execute_move`. -/
def executeMove : Option Move → Prog Engine Unit
  | none => pure ()
  | some .reorder => do
    let i ← randrange P.n
    let j ← randrange P.n
    let _ ← rotate i j
    pure ()
  | some .flip => flip P
  | some .recolor => recolor P

/-- The probes of `_calibrate_temperature`, which undo the move they try. -/
def calibrate (base : ℤ) : ℕ → Prog Engine (List ℤ)
  | 0 => pure []
  | k + 1 => do
    let snap ← snapshot
    mark
    let move ← chooseMove P
    executeMove P move
    let e ← get
    let delta := |liveScore P e - base|
    adopt snap
    let deltas ← calibrate base k
    pure (if 0 < delta then delta :: deltas else deltas)

/-- Rotate the lifted buffer to the front, with the quality there. -/
def liftToFront (i : ℕ) : Prog Engine (List (ℕ × ℚ)) :=
  if i = 0 then pure []
  else do
    let _ ← rotate i 0
    let e ← get
    pure [(0, e.solver.totalQuality)]

/-- Bubble the lifted buffer forward, with the quality at each position but its own. -/
def sweep (i : ℕ) : List ℕ → Prog Engine (List (ℕ × ℚ))
  | [] => pure []
  | p :: ps => do
    let _ ← swap (p - 1)
    let e ← get
    let rest ← sweep i ps
    pure (if p = i then rest else (p, e.solver.totalQuality) :: rest)

/-- Try the positions in turn, and go back to the snapshot if none is accepted. -/
def tryPositions (snap : Snap) (cur : ℤ) : ℕ → List ℕ → Prog Engine ℤ
  | _, [] => do
    adopt snap
    pure cur
  | pos, j :: rest => do
    let _ ← rotate pos j
    let e ← get
    let candidate := liveScore P e
    let accepted ← metropolis (candidate - cur)
    if accepted then accept candidate else tryPositions snap cur j rest

/-- `_sweep_upper_bound`. -/
def sweepUpperBound (i : ℕ) (allocated : List Bool) : ℕ :=
  if allocated.getD i false then allocated.length - 1
  else
    let last := ((List.range allocated.length).filter fun k => allocated.getD k false).getLastD 0
    min (allocated.length - 1) (last + 1)

/-- `_choose_reinsertion_source`. -/
def chooseReinsertionSource (allocated : List Bool) : Prog Engine ℕ :=
  choices (allocated.map fun a => if a then allocated.length else allocated.count true + 1)

/-- `_step_reorder`. -/
def stepReorder (cur : ℤ) : Prog Engine ℤ := do
  let e ← get
  let allocated := e.solver.permutation.map fun x => (e.solver.address x).isSome
  let i ← chooseReinsertionSource allocated
  let upper := sweepUpperBound i allocated
  let snap ← snapshot
  mark
  let first ← liftToFront i
  let rest ← sweep i (List.range' 1 upper)
  let order := (first ++ rest).insertionSort fun a b => b.2 ≤ a.2
  tryPositions P snap cur upper (order.map Prod.fst)

/-- `_step`. -/
def step (move : Move) (cur : ℤ) : Prog Engine ℤ :=
  if move = .reorder then stepReorder P cur
  else do
    let snap ← snapshot
    mark
    executeMove P (some move)
    let e ← get
    let new := liveScore P e
    let accepted ← metropolis (new - cur)
    if accepted then accept new
    else
      adopt snap
      pure cur

/-- The loop of `_anneal`, which ends early when no move applies. -/
def annealLoop : ℕ → ℤ → Prog Engine ℤ
  | 0, cur => pure cur
  | k + 1, cur => do
    let move ← chooseMove P
    match move with
    | none => pure cur
    | some move =>
      let cur ← step P move cur
      annealLoop k cur

/-- `_anneal` up to the adoption of the best state : the score of the live state. -/
def search (steps : ℕ) : Prog Engine ℤ := do
  let e ← get
  let cur := liveScore P e
  keepBest cur
  if applicableMoves P e = [] then pure cur
  else
    let _ ← calibrate P cur (min 64 (4 * P.n + 8))
    annealLoop P steps cur

/-- `_anneal`. -/
def anneal (steps : ℕ) : Prog Engine Unit := do
  let _ ← search P steps
  let e ← get
  adopt e.bestSnap

/-! ## The seed -/

/-- `_seed_configs`. -/
def seedConfigs : Divisions := fun i =>
  (P.bufs[i]?.map CoreDivisionBuffer.seed).getD (configFor ⟨[], [], {}⟩)

/-- `_lifetime_buffers` : what the packer is given. -/
def lifetimeBuffers (chosen : Divisions) : List LifetimeBoundBuffer :=
  P.bufs.zipIdx.map fun b =>
    { b.1.life with
      size := (P.perCoreSize b.2 (chosen b.2)).toNat
      inPlaceParents := b.1.life.inPlaceParents.filter fun p => (P.nameToIdx p).isSome }

/-- The buffers of the seed pass, without the in-place pairs whose child is larger. -/
def firstFitBuffers (chosen : Divisions) : List LifetimeBoundBuffer :=
  (lifetimeBuffers P chosen).map fun b =>
    { b with
      inPlaceParents := b.inPlaceParents.filter fun p =>
        match P.nameToIdx p with
        | none => false
        | some i => decide ((b.size : ℤ) ≤ P.perCoreSize i (chosen i)) }

/-- `SolverToPermutation.permutation` of a first-fit pass : the buffers by address, the ones
without an address last. -/
def seedPermutation (chosen : Divisions) : Except String (List ℕ) := do
  let address ← FirstFit.planLayout P.limit P.alignment .firstFit (firstFitBuffers P chosen)
  let names := P.bufs.map CoreDivisionBuffer.name
  let maxAddress := (names.filterMap address).foldl max 0
  return (List.range P.n).insertionSort fun i j =>
    (address (names.getD i "")).getD (maxAddress + 1) ≤
      (address (names.getD j "")).getD (maxAddress + 1)

/-- `_build_seed_packer`, for an order of the buffers. -/
def buildSeedPacker (chosen : Divisions) (pi : List ℕ) : Except String PermLayout.Solver :=
  PermLayout.construct (lifetimeBuffers P chosen) P.order (pi.map (↑)) P.limit P.alignment
    (some ((List.range P.n).map (P.eligible chosen)))

/-- `_assert_unsized_buffers_are_pinned`, for one buffer. -/
def assertUnsizedIsPinned (b : CoreDivisionBuffer) : Except String Unit :=
  let name := b.name
  let size := b.size
  guardE (0 ≤ b.size ∨ b.life.residencyReason ≠ none)
    (s!"buffer {name} is unsized (size={size}) but carries no residency_reason, so nothing " ++
      "gates it out of LX residency; its per-core footprint would clamp to 0 and the buffer " ++
      "placed above it would land on the same address")

/-- The assertion of `_build_operation_positions` : no earlier buffer has the position. -/
def assertPositionIsFree (i : ℕ) (b : CoreDivisionBuffer) : Except String Unit :=
  match b.opPosition with
  | none => .ok ()
  | some position =>
    match (P.bufs.take i).find? fun earlier => earlier.opPosition = some position with
    | none => .ok ()
    | some earlier =>
      let first := earlier.name
      let second := b.name
      .error s!"buffers '{first}' and '{second}' both claim operation position {position}"

/-- The assertions of `_precompute_topology`. -/
def checkTopology : Except String Unit := do
  checkAll assertUnsizedIsPinned P.bufs
  checkAll (fun b => assertPositionIsFree P b.2 b.1) P.bufs.zipIdx

/-- The state the search starts in. -/
def seed (draws : ℕ → ℕ) : Except String Engine := do
  checkTopology P
  let pi ← seedPermutation P (seedConfigs P)
  let packer ← buildSeedPacker P (seedConfigs P) pi
  return {
    heap := ⟨fun _ => packer, fun _ => seedConfigs P, 1⟩
    packer := 0
    chosen := 0
    nEligible := P.countEligible (seedConfigs P) (List.range P.n)
    bestScore := 0
    bestSnap := ⟨0, 0, 0⟩
    taken := (packer, seedConfigs P)
    rng := ⟨draws, 0⟩ }

/-! ## Writing back -/

/-- What the solver leaves on a buffer. -/
structure PlannedBuffer where
  coreDivisions : List CoreDivision
  chosenDivision : ℕ
  address : Option ℤ
  spillReason : Option String

/-- The division a planned buffer names. -/
def PlannedBuffer.config (b : PlannedBuffer) : Option DivisionConfig :=
  (menuConfigs b.coreDivisions)[b.chosenDivision]?

/-- `_menu_position` : the position that names a config, and the divisions of the buffer after
registering it. -/
def menuPosition (b : CoreDivisionBuffer) (config : DivisionConfig) : ℕ × List CoreDivision :=
  match config.menuIndex with
  | some m => (m, b.coreDivisions)
  | none =>
    match b.menu.findIdx? fun c => c.key = config.key with
    | some m => (m, b.coreDivisions)
    | none => (b.coreDivisions.length, b.coreDivisions ++ [config.division])

/-- `SOLVER_CHOSE_SPILL`. -/
def solverChoseSpill : String :=
  "spilled by solver (no residency benefit / no room)"

/-- Why a buffer has no address. An empty reason is no reason. -/
def spilledBecause (b : CoreDivisionBuffer) : String :=
  match b.life.residencyReason with
  | none => solverChoseSpill
  | some r => if r = "" then solverChoseSpill else r

/-- `_write_back`. -/
def writeBack (e : Engine) : List PlannedBuffer :=
  P.bufs.zipIdx.map fun b =>
    { coreDivisions := (menuPosition b.1 (e.divisions b.2)).2
      chosenDivision := (menuPosition b.1 (e.divisions b.2)).1
      address := e.solver.address b.2
      spillReason := if (e.solver.address b.2).isNone then some (spilledBecause b.1) else none }

/-- `_step_budget`. -/
def stepBudget (n : ℕ) : ℕ :=
  min 50000 (200 * n)

/-- `plan_layout_and_core_divisions`. -/
def plan (draws : ℕ → ℕ) : Except String (List PlannedBuffer) :=
  if P.bufs = [] then .ok []
  else do
    let e ← seed P draws
    return writeBack P (anneal P (stepBudget P.n) e).2.1

end Annealer

end TorchSpyre
