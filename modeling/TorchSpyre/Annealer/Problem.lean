import Mathlib
import TorchSpyre.PermLayout.Run
import TorchSpyre.Annealer.Runs

/-!
# The co-optimizer's problem

`SaCoOptimizingSolver` in `sa_cooptimizer.py` chooses a division over the cores for every
buffer and an order for the packer. What does not change during the search is here : where a
buffer's divisions come from, which pairs of divisions let a consumer read a producer from the
scratchpad, which buffers may be resident under a vector of divisions, and what a state costs.

A buffer draws its divisions from its menu, or from a space of legal splits that generates
them. The space and the geometry of an edge are functions here, whatever they compute. So is
the random stream : a sequence of numbers, one for each draw.

Whether a buffer may be resident depends on its own division and on those of its children
(`eligible_congr`).
-/

open List

namespace TorchSpyre

namespace Annealer

/-! ## Divisions -/

/-- A division over the cores, and a coarse tiling. The split map is sorted by symbol. -/
structure CoreDivision where
  splits : List (String × ℕ)
  reductionSyms : List String := []
  tiling : TileSpec := {}
deriving DecidableEq

/-- How many cores the output is sliced across. -/
def CoreDivision.outputPartition (d : CoreDivision) : ℕ :=
  ((d.splits.filter fun s => s.1 ∉ d.reductionSyms).map Prod.snd).prod

/-- The split factor of a symbol. -/
def CoreDivision.factor (d : CoreDivision) (sym : String) : ℕ :=
  ((d.splits.find? fun s => s.1 = sym).map Prod.snd).getD 1

/-- A division as the search holds it, with its position in the menu if it came from there. -/
structure DivisionConfig where
  division : CoreDivision
  menuIndex : Option ℕ
  positionDisambiguates : Bool := false
deriving DecidableEq

namespace DivisionConfig

/-- What makes two configs the same choice. -/
def key (c : DivisionConfig) : CoreDivision × Option ℕ :=
  (c.division, if c.positionDisambiguates then c.menuIndex else none)

/-- The key without the tiling, which is what an edge compares. -/
def splitKey (c : DivisionConfig) : List (String × ℕ) × List String × Option ℕ :=
  (c.division.splits, c.division.reductionSyms, c.key.2)

/-- The tiling of the division. -/
def tiling (c : DivisionConfig) : TileSpec :=
  c.division.tiling

end DivisionConfig

/-- `config_for` : a generated division, which has no position in the menu. -/
def configFor (d : CoreDivision) : DivisionConfig where
  division := d
  menuIndex := none

/-- The configs of a menu. A division that repeats an earlier one is told apart by its
position. -/
def menuConfigs (divisions : List CoreDivision) : List DivisionConfig :=
  divisions.zipIdx.map fun p => ⟨p.1, some p.2, decide (p.1 ∈ divisions.take p.2)⟩

/-- `_one_axis_apart`. -/
def oneAxisApart (left right : CoreDivision) : Bool :=
  ((left.splits ++ right.splits).map Prod.fst).dedup.countP
    (fun sym => left.factor sym ≠ right.factor sym) = 1

/-! ## Random draws -/

/-- The random stream : its draws, and how many have been made. -/
structure Rng where
  draws : ℕ → ℕ
  pos : ℕ := 0

/-- The next draw. -/
def Rng.next (r : Rng) : ℕ × Rng :=
  (r.draws r.pos, { r with pos := r.pos + 1 })

/-! ## Edges -/

/-- The legal splits and tilings of an operation. -/
structure SplitSpace where
  neighbours : CoreDivision → List CoreDivision
  retiled : CoreDivision → TileSpec → Option CoreDivision
  anchor : CoreDivision → Rng → Option CoreDivision × Rng
  canMove : Bool
  canSplit : Bool
  canTile : Bool

/-- The geometry of an edge : which splits agree on the buffer, and the division on the other
end. -/
structure ResidencyEdge where
  compatible : List (String × ℕ) → List (String × ℕ) → Bool
  consumerDivisionFor : CoreDivision → Option CoreDivision
  parentDivisionFor : CoreDivision → Option CoreDivision

/-- `_EdgeRelation`. -/
structure EdgeRelation where
  compatible : DivisionConfig → DivisionConfig → Bool
  childFor : DivisionConfig → Option DivisionConfig
  parentFor : DivisionConfig → Option DivisionConfig

/-- The pairs of a table as configs, both untiled. -/
def resolvePairs (pairs : List (ℕ × ℕ)) (parentMenu childMenu : List DivisionConfig) :
    List (DivisionConfig × DivisionConfig) :=
  pairs.filterMap fun p =>
    match parentMenu[p.1]?, childMenu[p.2]? with
    | some parent, some child =>
      if parent.tiling.isUntiled && child.tiling.isUntiled then some (parent, child) else none
    | _, _ => none

/-- `_table_relation` : the pairs of menu positions the allocator found to match. Among several
matches the lowest position on the other end is taken. -/
def tableRelation (pairs : List (ℕ × ℕ)) (parentMenu childMenu : List DivisionConfig) :
    EdgeRelation :=
  let byParent := resolvePairs
    (pairs.dedup.insertionSort fun a b => a.1 < b.1 ∨ a.1 = b.1 ∧ a.2 ≤ b.2) parentMenu childMenu
  let byChild := resolvePairs
    (pairs.dedup.insertionSort fun a b => a.2 < b.2 ∨ a.2 = b.2 ∧ a.1 ≤ b.1) parentMenu childMenu
  { compatible := fun parent child =>
      byParent.any fun p => p.1.splitKey = parent.splitKey ∧ p.2.splitKey = child.splitKey
    childFor := fun parent =>
      (byChild.find? fun p => p.1.splitKey = parent.splitKey).map Prod.snd
    parentFor := fun child =>
      (byParent.find? fun p => p.2.splitKey = child.splitKey).map Prod.fst }

/-- `_ViewRelation` : the relation computed from the geometry of the edge. A tiling is carried
across where the reader reads it as written. -/
def viewRelation (edge : ResidencyEdge) (carries : TileSpec → Bool) : EdgeRelation :=
  let carried := fun d : CoreDivision => if carries d.tiling then d else { d with tiling := {} }
  { compatible := fun parent child =>
      edge.compatible parent.division.splits child.division.splits
    childFor := fun parent => (edge.consumerDivisionFor (carried parent.division)).map configFor
    parentFor := fun child => (edge.parentDivisionFor (carried child.division)).map configFor }

/-! ## Buffers -/

/-- What a buffer is to the graph. -/
inductive BufferType where
  | intermediate
  | input
  | output
deriving DecidableEq

/-- A buffer to divide and place. The size is that of the whole buffer, `-1` if it is unknown.
`life` has the name, the uses and the in-place parents ; its own size is not read. -/
structure CoreDivisionBuffer where
  life : LifetimeBoundBuffer
  size : ℤ
  coreDivisions : List CoreDivision
  coreDivisions_ne : coreDivisions ≠ []
  divisionSpace : Option SplitSpace := none
  parents : List String := []
  cdParentMatches : String → List (ℕ × ℕ) := fun _ => []
  residencyEdges : String → Option ResidencyEdge := fun _ => none
  opPosition : Option ℕ := none
  tileReads : List (String × TileReads) := []
  boundary : BufferType := .intermediate

namespace CoreDivisionBuffer

variable (b : CoreDivisionBuffer)

/-- The name of the buffer. -/
def name : String :=
  b.life.name

/-- The candidates as configurations. -/
def menu : List DivisionConfig :=
  menuConfigs b.coreDivisions

theorem menu_ne : b.menu ≠ [] := by
  simpa [menu, menuConfigs] using b.coreDivisions_ne

/-- The committed division, which the allocator lists first. -/
def seed : DivisionConfig :=
  b.menu.head b.menu_ne

/-- The divisions one step away. -/
def neighbours (c : DivisionConfig) : List DivisionConfig :=
  match b.divisionSpace with
  | none => b.menu.filter fun d => oneAxisApart d.division c.division
  | some space => (space.neighbours c.division).map configFor

/-- The same splits under another tiling. A menu has none but untiled. -/
def retiled (c : DivisionConfig) (tiling : TileSpec) : Option DivisionConfig :=
  match b.divisionSpace with
  | none => if tiling.isUntiled then some c else none
  | some space => (space.retiled c.division tiling).map configFor

/-- The splitting divisions of the menu. -/
def splitting : List DivisionConfig :=
  b.menu.filter fun c => 1 < c.division.outputPartition

/-- A splitting division to recolor a region from. -/
def anchor (c : DivisionConfig) (rng : Rng) : Option DivisionConfig × Rng :=
  match b.divisionSpace with
  | none =>
    if b.splitting = [] then (none, rng)
    else (b.splitting[rng.next.1 % b.splitting.length]?, rng.next.2)
  | some space => ((space.anchor c.division rng).1.map configFor, (space.anchor c.division rng).2)

/-- There is another division or tiling to go to. -/
def canMove : Bool :=
  match b.divisionSpace with
  | none => decide (1 < b.menu.length)
  | some space => space.canMove || space.canTile

/-- There is a division over more than one core. -/
def canSplit : Bool :=
  match b.divisionSpace with
  | none => !b.splitting.isEmpty
  | some space => space.canSplit

/-- There is a tiling to choose. -/
def canTile : Bool :=
  match b.divisionSpace with
  | none => false
  | some space => space.canTile

end CoreDivisionBuffer

/-- A vector of divisions, by buffer. -/
abbrev Divisions := ℕ → DivisionConfig

/-- The buffers, the capacity and the objective. `scoreFn` is the compiled cost expression,
`none` when it cannot be evaluated. `order` is the iteration order of the packer's sets. -/
structure Problem where
  bufs : List CoreDivisionBuffer
  limit : ℕ
  alignment : ℕ
  misread : Misread
  scoreFn : Option (Divisions → List String → ℤ)
  hbmBytesPerUs : ℚ
  toFixedUs : ℚ → ℤ
  order : PermLayout.SetOrder

namespace Problem

variable (P : Problem)

/-- The number of buffers. -/
def n : ℕ :=
  P.bufs.length

/-! ## Topology -/

/-- `_name_to_idx`. The last buffer of a name wins. -/
def nameToIdx (name : String) : Option ℕ :=
  (P.bufs.zipIdx.reverse.find? fun b => b.1.name = name).map Prod.snd

/-- `_edge_relation`. -/
def edgeRelation (parent child : CoreDivisionBuffer) : EdgeRelation :=
  match child.residencyEdges parent.name, parent.divisionSpace, child.divisionSpace with
  | some edge, some _, some _ =>
    match child.tileReads.find? fun r => r.1 = parent.name with
    | none => viewRelation edge fun _ => true
    | some r => viewRelation edge fun spec => r.2.aligned P.misread spec spec
  | _, _, _ => tableRelation (child.cdParentMatches parent.name) parent.menu child.menu

/-- The indices of a buffer's parents that are buffers of the problem. -/
def parentsIdx (c : ℕ) : List ℕ :=
  ((P.bufs[c]?.map CoreDivisionBuffer.parents).getD []).filterMap P.nameToIdx |>.dedup

/-- `_children` : the children of a buffer with the relations on their edges, one for every time
the child names it. -/
def children (p : ℕ) : List (ℕ × EdgeRelation) :=
  P.bufs.zipIdx.flatMap fun c =>
    c.1.parents.filterMap fun name =>
      if P.nameToIdx name = some p then
        P.bufs[p]?.map fun parent => (c.2, P.edgeRelation parent c.1)
      else none

/-- `_children_idx`. -/
def childrenIdx (p : ℕ) : List ℕ :=
  ((P.children p).map Prod.fst).insertionSort (· ≤ ·)

/-- `_relations` : the relation on an edge. -/
def relation (p c : ℕ) : Option EdgeRelation :=
  ((P.children p).reverse.find? fun e => e.1 = c).map Prod.snd

/-- What the runs need of the buffers. -/
def runBufs : List RunBuffer :=
  P.bufs.map fun b => ⟨b.name, b.opPosition, b.tileReads⟩

/-- The position of the operation of a buffer. -/
def positionOf (idx : ℕ) : Option ℕ :=
  P.bufs[idx]?.bind CoreDivisionBuffer.opPosition

/-- `_runs` under a vector of divisions. -/
def runs (chosen : Divisions) : List (ℕ × ℕ) :=
  Annealer.runs P.misread P.runBufs fun idx => (chosen idx).tiling

/-- `_run_bounds` : the run that holds a position. -/
def runBounds (chosen : Divisions) (position : ℕ) : ℕ × ℕ :=
  ((P.runs chosen).find? fun r => position ≤ r.2).getD (position, position)

/-- Some buffer can be tiled. -/
def tilingsArePossible : Bool :=
  P.bufs.any CoreDivisionBuffer.canTile

/-! ## Eligibility -/

/-- `ceil_div`. -/
def ceilDiv (a b : ℤ) : ℤ :=
  -(-a / b)

/-- `_per_core_size`. -/
def perCoreSize (idx : ℕ) (config : DivisionConfig) : ℤ :=
  let divisor := config.division.outputPartition * config.tiling.outputTileCount
  max 0 (ceilDiv ((P.bufs[idx]?.map CoreDivisionBuffer.size).getD 0) (divisor : ℕ))

/-- `_read_across_a_tiling_boundary`. -/
def readAcross (chosen : Divisions) (idx : ℕ) : Bool :=
  P.tilingsArePossible && (chosen idx).tiling.isUntiled &&
    (P.children idx).any fun c => !(chosen c.1).tiling.isUntiled

/-- The fixed reason that keeps a buffer out of the scratchpad. -/
def residencyReason (idx : ℕ) : Option String :=
  P.bufs[idx]?.bind fun b => b.life.residencyReason

/-- `_eligible`. -/
def eligible (chosen : Divisions) (idx : ℕ) : Bool :=
  (P.residencyReason idx).isNone && decide (P.perCoreSize idx (chosen idx) ≤ P.limit) &&
    !P.readAcross chosen idx &&
    (P.children idx).all fun c => c.2.compatible (chosen idx) (chosen c.1)

/-- How many of the buffers listed are eligible. -/
def countEligible (chosen : Divisions) (l : List ℕ) : ℤ :=
  (l.countP fun i => P.eligible chosen i : ℕ)

variable {P}

/-- Eligibility depends on the division of the buffer and those of its children. -/
theorem eligible_congr {chosen chosen' : Divisions} {idx : ℕ} (hself : chosen idx = chosen' idx)
    (hchildren : ∀ c ∈ P.children idx, chosen c.1 = chosen' c.1) :
    P.eligible chosen idx = P.eligible chosen' idx := by
  have hany : ((P.children idx).any fun c => !(chosen c.1).tiling.isUntiled) =
      (P.children idx).any fun c => !(chosen' c.1).tiling.isUntiled := by
    rw [Bool.eq_iff_iff, any_eq_true, any_eq_true]
    exact exists_congr fun c => and_congr_right fun hc => by rw [hchildren c hc]
  have hall : ((P.children idx).all fun c => c.2.compatible (chosen idx) (chosen c.1)) =
      (P.children idx).all fun c => c.2.compatible (chosen' idx) (chosen' c.1) := by
    rw [Bool.eq_iff_iff, all_eq_true, all_eq_true]
    exact forall₂_congr fun c hc => by rw [hself, hchildren c hc]
  rw [eligible, eligible, hall, readAcross, readAcross, hany, hself]

variable {p : ℕ} {c : ℕ × EdgeRelation}

/-- An edge joins two buffers of the problem, and the child names the parent. -/
theorem mem_children (hc : c ∈ P.children p) :
    ∃ parent child, P.bufs[p]? = some parent ∧ P.bufs[c.1]? = some child ∧
      c.2 = P.edgeRelation parent child ∧ ∃ name ∈ child.parents, P.nameToIdx name = some p := by
  obtain ⟨⟨b, i⟩, hb, hc⟩ := mem_flatMap.mp hc
  obtain ⟨name, hname, hc⟩ := mem_filterMap.mp hc
  dsimp only at hname hc
  split_ifs at hc with hidx
  obtain ⟨parent, hparent, rfl⟩ := Option.map_eq_some_iff.mp hc
  exact ⟨parent, b, hparent, mk_mem_zipIdx_iff_getElem?.mp hb, rfl, name, hname, hidx⟩

/-- A child of a buffer has it among its parents. -/
theorem mem_parentsIdx_of_mem_children (hc : c ∈ P.children p) :
    p ∈ P.parentsIdx c.1 := by
  obtain ⟨parent, child, -, hchild, -, name, hname, hidx⟩ := mem_children hc
  rw [parentsIdx, mem_dedup, mem_filterMap, hchild]
  exact ⟨name, hname, hidx⟩

theorem lt_of_mem_children (hc : c ∈ P.children p) : c.1 < P.n := by
  obtain ⟨parent, child, -, hchild, -⟩ := mem_children hc
  exact (List.getElem?_eq_some_iff.mp hchild).1

theorem perCoreSize_nonneg (idx : ℕ) (config : DivisionConfig) : 0 ≤ P.perCoreSize idx config :=
  le_max_left _ _

variable (P)

/-! ## The objective -/

/-- `_spill_cost`. -/
def spillCost (b : CoreDivisionBuffer) : ℤ :=
  let readCount : ℤ := max 0 (b.life.uses.length - if b.life.firstUseIsRead then 0 else 1)
  let readsServed := readCount - if b.life.firstUseIsRead then 1 else 0
  (readsServed + if b.boundary = .intermediate then 1 else 0) * max 0 b.size

/-- The bytes the companion of the buffer at a position of a tiled run moves. -/
def companionCharge (address : ℕ → Option ℤ) (run : ℕ × ℕ) (position : ℕ) : ℤ :=
  match bufferAt P.runBufs position with
  | none => 0
  | some idx =>
    match P.bufs[idx]? with
    | none => 0
    | some b =>
      let outside := (P.children idx).countP fun c =>
        match P.positionOf c.1 with
        | none => true
        | some at' => !(decide (run.1 ≤ at') && decide (at' ≤ run.2))
      if outside = 0 ∧ b.boundary ≠ .output then 0
      else
        let size := max 0 b.size
        let copyRead := if (address idx).isSome then 0 else size
        let copyWrite := if b.boundary = .output then copyRead else size
        copyRead + copyWrite + if (address idx).isSome then size * outside else 0

/-- `_companion_bytes`. -/
def companionBytes (chosen : Divisions) (address : ℕ → Option ℤ) : ℤ :=
  if P.tilingsArePossible then
    ((P.runs chosen).map fun run =>
      if (tilingAt P.runBufs (fun idx => (chosen idx).tiling) run.1).isUntiled then 0
      else ((List.range' run.1 (run.2 + 1 - run.1)).map (P.companionCharge address run)).sum).sum
  else 0

/-- `_score` : the cost expression, or the traffic of the spilled buffers, and the traffic of the
companions. -/
def score (chosen : Divisions) (address : ℕ → Option ℤ) : ℤ :=
  let companions := P.toFixedUs (P.companionBytes chosen address / P.hbmBytesPerUs)
  match P.scoreFn with
  | some fn =>
    fn chosen ((P.bufs.zipIdx.filter fun b => (address b.2).isSome).map fun b => b.1.name) +
      companions
  | none =>
    let traffic := ((P.bufs.zipIdx.filter fun b => (address b.2).isNone).map
      fun b => spillCost b.1).sum
    P.toFixedUs (traffic / P.hbmBytesPerUs) + companions

end Problem

end Annealer

end TorchSpyre
