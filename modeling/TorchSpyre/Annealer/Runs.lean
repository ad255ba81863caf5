import Mathlib

/-!
# Tiling groups and the annealer's runs

Two traversals of the operation list. `derive_tiling_groups` in `coarse_tiling.py` walks the
operations with a dictionary of the producers seen since the loop nest last changed, and
starts a group where an operation does not read one of them tile by tile. The annealer
(`_runs` in `sa_cooptimizer.py`) re-derives the groups from the positions of its buffers : a
stretch is a maximal range of positions with one nest, cut where a buffer misreads a producer
at or after the start of the stretch.

Both are compared with one recursion over the positions (`tailRuns`), which says what is left
to yield when position `at` lies in a run from `lo` and a stretch from `stretch`. The nested
loops of `_runs` unroll to it (`stretchLoop_append`), and the groups are its tiled runs
(`finish_foldl_deriveStep`). The annealer knows positions up to its last buffer. What follows
is untiled, and no run reaches it.
-/

open List Function

namespace TorchSpyre

namespace Annealer

/-! ## Tile specs -/

/-- One coarse-tiling level. -/
structure TileAxis where
  hostDim : ℕ
  count : ℕ
  isReduction : Bool := false
deriving DecidableEq

/-- The levels of a tiling, outermost first. -/
structure TileSpec where
  axes : List TileAxis := []
deriving DecidableEq

namespace TileSpec

/-- There is no level. -/
def isUntiled (spec : TileSpec) : Bool :=
  spec.axes.isEmpty

/-- The loop nest alone : the trip count of each level. -/
def levelCounts (spec : TileSpec) : List ℕ :=
  spec.axes.map TileAxis.count

/-- The number of tiles the output is cut into. -/
def outputTileCount (spec : TileSpec) : ℕ :=
  ((spec.axes.filter fun a => !a.isReduction).map TileAxis.count).prod

@[simp] theorem levelCounts_eq_nil_iff {spec : TileSpec} :
    spec.levelCounts = [] ↔ spec.isUntiled = true := by
  simp [levelCounts, isUntiled]

theorem outputTileCount_of_isUntiled {spec : TileSpec} (h : spec.isUntiled = true) :
    spec.outputTileCount = 1 := by
  rw [isUntiled, List.isEmpty_iff] at h
  simp [outputTileCount, h]

@[simp] theorem isUntiled_default : isUntiled {} = true :=
  rfl

end TileSpec

/-! ## Operations and their groups -/

/-- A read of a buffer. `site` tells several reads of one buffer apart. -/
structure Dep where
  name : String
  site : ℕ
deriving DecidableEq

/-- An operation : its own name, the buffer it writes, and what it reads. -/
structure Operation where
  operationName : String
  name : String
  reads : List Dep
deriving DecidableEq

/-- The verdict of `tile_misread` : a consumer under its spec does not read what a producer
under its spec writes, tile by tile. -/
abbrev Misread := Operation → TileSpec → Operation → TileSpec → Dep → Bool

section Groups

variable (misread : Misread) (choices : String → Option TileSpec)

/-- The spec of an operation, untiled when none is chosen. -/
def specOf (op : Operation) : TileSpec :=
  (choices op.operationName).getD {}

/-- `_stretch_misread` : some read of `op` from a producer of the stretch is misread. -/
def stretchMisread (op : Operation) (spec : TileSpec) (stretch : String → Option Operation) :
    Bool :=
  op.reads.any fun read =>
    match stretch read.name with
    | none => false
    | some producer => misread producer (specOf choices producer) op spec read

/-- The variables of the loop in `derive_tiling_groups`. -/
structure Grouping where
  groups : List (List Operation × List ℕ)
  currentOps : List Operation
  currentNest : List ℕ
  stretch : String → Option Operation

/-- Put the current group with the finished ones. -/
def Grouping.finish (st : Grouping) : List (List Operation × List ℕ) :=
  if st.currentOps = [] then st.groups else st.groups ++ [(st.currentOps, st.currentNest)]

/-- What the loop body does with the groups. -/
def regroup (st : Grouping) (op : Operation) : Grouping :=
  let nest := (specOf choices op).levelCounts
  if nest ≠ [] ∧ nest = st.currentNest then
    if stretchMisread misread choices op (specOf choices op) st.stretch then
      { st with
        groups := st.groups ++ [(st.currentOps, st.currentNest)]
        currentOps := [op] }
    else { st with currentOps := st.currentOps ++ [op] }
  else
    { groups := st.finish
      currentOps := if nest = [] then [] else [op]
      currentNest := nest
      stretch := fun _ => none }

/-- The loop body. -/
def deriveStep (st : Grouping) (op : Operation) : Grouping :=
  let st' := regroup misread choices st op
  if (specOf choices op).levelCounts = [] then st'
  else { st' with stretch := Function.update st'.stretch op.name (some op) }

/-- The variables before the loop. -/
def Grouping.empty : Grouping where
  groups := []
  currentOps := []
  currentNest := []
  stretch := fun _ => none

/-- `derive_tiling_groups`. -/
def deriveTilingGroups (operations : List Operation) : List (List Operation × List ℕ) :=
  (operations.foldl (deriveStep misread choices) .empty).finish

end Groups

/-! ## Runs -/

/-- `TileReads`, with the verdict for each pair of specs. -/
structure TileReads where
  producer : Operation
  consumer : Operation
deriving DecidableEq

/-- The consumer misreads nothing of the producer. -/
def TileReads.aligned (misread : Misread) (reads : TileReads)
    (producerSpec consumerSpec : TileSpec) : Bool :=
  (reads.consumer.reads.filter fun read => read.name = reads.producer.name).all fun read =>
    !misread reads.producer producerSpec reads.consumer consumerSpec read

/-- What the runs need of a solver buffer : its name, the position of its operation, and the
producers it reads. -/
structure RunBuffer where
  name : String
  opPosition : Option ℕ
  tileReads : List (String × TileReads)
deriving DecidableEq

section Runs

variable (misread : Misread) (bufs : List RunBuffer) (chosen : ℕ → TileSpec)

/-- `_buffer_at`. -/
def bufferAt (position : ℕ) : Option ℕ :=
  bufs.findIdx? fun b => b.opPosition = some position

/-- `_n_positions` : one more than the last position of a buffer. -/
def nPositions : ℕ :=
  (bufs.filterMap RunBuffer.opPosition).foldr (fun p n => max (p + 1) n) 0

/-- The position a buffer name resolves to. -/
def producerPosition (name : String) : Option ℕ :=
  (bufs.find? fun b => b.name = name).bind RunBuffer.opPosition

/-- `_tile_reads` : the earlier producers the buffers at a position read. -/
def tileReadsAt (reader : ℕ) : List (ℕ × TileReads) :=
  (bufs.filter fun b => b.opPosition = some reader).flatMap fun b =>
    b.tileReads.filterMap fun r =>
      match producerPosition bufs r.1 with
      | none => none
      | some producer => if reader ≤ producer then none else some (producer, r.2)

/-- `_tiling_at`. -/
def tilingAt (position : ℕ) : TileSpec :=
  match bufferAt bufs position with
  | none => {}
  | some idx => chosen idx

/-- `_breaks_at`. -/
def breaksAt (position stretch : ℕ) : Bool :=
  let spec := tilingAt bufs chosen position
  if spec.isUntiled then false
  else (tileReadsAt bufs position).any fun r =>
    decide (stretch ≤ r.1) && !r.2.aligned misread (tilingAt bufs chosen r.1) spec

/-- The nest at a position. -/
def nestAt (position : ℕ) : List ℕ :=
  (tilingAt bufs chosen position).levelCounts

/-- The inner loop of `_runs` : the runs of a stretch and its last position. -/
def stretchLoop (nest : List ℕ) (stretch : ℕ) : ℕ → ℕ → ℕ → List (ℕ × ℕ) × ℕ
  | 0, lo, at' => ([(lo, at')], at')
  | fuel + 1, lo, at' =>
    if at' + 1 < nPositions bufs ∧ nestAt bufs chosen (at' + 1) = nest then
      if breaksAt misread bufs chosen (at' + 1) stretch then
        let rest := stretchLoop nest stretch fuel (at' + 1) (at' + 1)
        ((lo, at') :: rest.1, rest.2)
      else stretchLoop nest stretch fuel lo (at' + 1)
    else ([(lo, at')], at')

/-- The outer loop of `_runs`. -/
def runsFrom : ℕ → ℕ → List (ℕ × ℕ)
  | 0, _ => []
  | fuel + 1, stretch =>
    if stretch < nPositions bufs then
      let s := stretchLoop misread bufs chosen (nestAt bufs chosen stretch) stretch
        (nPositions bufs) stretch stretch
      s.1 ++ runsFrom fuel (s.2 + 1)
    else []

/-- `_runs` : the runs, left to right, inclusive on both ends. Each loop takes at most one
iteration for each position. -/
def runs : List (ℕ × ℕ) :=
  runsFrom misread bufs chosen (nPositions bufs) 0

/-! ## The runs, position by position -/

/-- The runs left to yield from position `at'` on, when `k` positions follow it. -/
def tailRuns : ℕ → ℕ → ℕ → ℕ → List (ℕ × ℕ)
  | 0, _, lo, at' => [(lo, at')]
  | k + 1, stretch, lo, at' =>
    if nestAt bufs chosen (at' + 1) = nestAt bufs chosen at' then
      if breaksAt misread bufs chosen (at' + 1) stretch then
        (lo, at') :: tailRuns k stretch (at' + 1) (at' + 1)
      else tailRuns k stretch lo (at' + 1)
    else (lo, at') :: tailRuns k (at' + 1) (at' + 1) (at' + 1)

variable {misread bufs chosen}

variable {at' k lo stretch : ℕ}

/-- The loops of `_runs` yield what the recursion does. -/
theorem stretchLoop_append {fuel : ℕ} (hk : at' + k + 1 = nPositions bufs) (hfuel : k ≤ fuel)
    {fuel' : ℕ} (hfuel' : k ≤ fuel') :
    (stretchLoop misread bufs chosen (nestAt bufs chosen at') stretch fuel lo at').1 ++
        runsFrom misread bufs chosen fuel'
          ((stretchLoop misread bufs chosen (nestAt bufs chosen at') stretch fuel lo at').2 + 1) =
      tailRuns misread bufs chosen k stretch lo at' := by
  induction k generalizing fuel stretch lo at' fuel' with
  | zero =>
    have hloop : stretchLoop misread bufs chosen (nestAt bufs chosen at') stretch fuel lo at' =
        ([(lo, at')], at') := by
      cases fuel with
      | zero => rfl
      | succ fuel => rw [stretchLoop, if_neg (by omega)]
    have hrest : runsFrom misread bufs chosen fuel' (at' + 1) = [] := by
      cases fuel' with
      | zero => rfl
      | succ fuel' => rw [runsFrom, if_neg (by omega)]
    rw [hloop, hrest]
    rfl
  | succ k ih =>
    obtain ⟨fuel, rfl⟩ : ∃ f, fuel = f + 1 := ⟨fuel - 1, by omega⟩
    rw [stretchLoop, tailRuns]
    by_cases hnest : nestAt bufs chosen (at' + 1) = nestAt bufs chosen at'
    · rw [if_pos ⟨by omega, hnest⟩, if_pos hnest, ← hnest]
      split_ifs
      · exact congrArg ((lo, at') :: ·) (ih (by omega) (by omega) (by omega))
      · exact ih (by omega) (by omega) (by omega)
    · obtain ⟨fuel', rfl⟩ : ∃ f, fuel' = f + 1 := ⟨fuel' - 1, by omega⟩
      rw [if_neg fun h => hnest h.2, if_neg hnest, runsFrom, if_pos (by omega)]
      exact congrArg ((lo, at') :: ·) (ih (by omega) (by omega) (by omega))

theorem runs_eq_tailRuns (hk : k + 1 = nPositions bufs) :
    runs misread bufs chosen = tailRuns misread bufs chosen k 0 0 0 := by
  rw [runs, ← hk, runsFrom, if_pos (by omega)]
  exact stretchLoop_append (by omega) (by omega) (by omega)

theorem runs_eq_nil (hk : nPositions bufs = 0) : runs misread bufs chosen = [] := by
  rw [runs, hk, runsFrom]

/-- A range, and the one that starts where it ends. -/
theorem range'_cut (hlo : lo ≤ at') (k : ℕ) :
    List.range' lo (at' + 1 - lo) ++ List.range' (at' + 1) (k + 1) =
      List.range' lo (at' + (k + 1) + 1 - lo) := by
  have happ := @range'_append lo (at' + 1 - lo) (k + 1) 1
  rwa [one_mul, show lo + (at' + 1 - lo) = at' + 1 by omega,
    show at' + 1 - lo + (k + 1) = at' + (k + 1) + 1 - lo by omega] at happ

/-- The runs cover the positions from `lo` on, each once and in order. -/
theorem flatMap_tailRuns (hlo : lo ≤ at') :
    ((tailRuns misread bufs chosen k stretch lo at').flatMap fun r =>
      List.range' r.1 (r.2 + 1 - r.1)) = List.range' lo (at' + k + 1 - lo) := by
  induction k generalizing stretch lo at' with
  | zero => simp [tailRuns]
  | succ k ih =>
    have hnext : ∀ stretch', ((tailRuns misread bufs chosen k stretch' (at' + 1)
        (at' + 1)).flatMap fun r => List.range' r.1 (r.2 + 1 - r.1)) =
          List.range' (at' + 1) (k + 1) := by
      intro stretch'
      rw [ih le_rfl, show at' + 1 + k + 1 - (at' + 1) = k + 1 by omega]
    rw [tailRuns]
    split_ifs
    · rw [flatMap_cons, hnext, range'_cut hlo]
    · rw [ih (by omega), show at' + 1 + k = at' + (k + 1) by omega]
    · rw [flatMap_cons, hnext, range'_cut hlo]

end Runs

/-! ## The groups are the tiled runs -/

section Same

variable {misread : Misread} {choices : String → Option TileSpec} {operations : List Operation}
  {bufs : List RunBuffer} {chosen : ℕ → TileSpec}

/-- The solver's buffers and their tilings describe the operations : the tiling of a position is
the spec chosen for its operation, and the reads between two buffers are those of their
operations. -/
structure Describes (operations : List Operation) (choices : String → Option TileSpec)
    (bufs : List RunBuffer) (chosen : ℕ → TileSpec) : Prop where
  /-- Operations write different buffers. -/
  nodup_names : (operations.map Operation.name).Nodup
  /-- Buffers have different names. -/
  nodup_bufs : (bufs.map RunBuffer.name).Nodup
  /-- A buffer has the position of the operation that writes it. -/
  position : ∀ b ∈ bufs, ∀ p, b.opPosition = some p → ∃ op, operations[p]? = some op ∧
    op.name = b.name
  /-- Two buffers have different positions, as the source asserts. -/
  position_inj : ∀ b ∈ bufs, ∀ c ∈ bufs, ∀ p, b.opPosition = some p → c.opPosition = some p →
    b = c
  /-- Only solver buffers are tiled, and by their chosen division. -/
  spec : ∀ p op, operations[p]? = some op → tilingAt bufs chosen p = specOf choices op
  /-- What a buffer says about a producer is about its own operation and that of the producer. -/
  reads_sound : ∀ b ∈ bufs, ∀ p consumer, b.opPosition = some p → operations[p]? = some consumer →
    ∀ r ∈ b.tileReads, ∀ q producer, producerPosition bufs r.1 = some q →
      operations[q]? = some producer → r.2 = ⟨producer, consumer⟩
  /-- A buffer that reads the buffer of an earlier position says so. -/
  reads_complete : ∀ b ∈ bufs, ∀ p consumer, b.opPosition = some p →
    operations[p]? = some consumer → ∀ read ∈ consumer.reads, ∀ c ∈ bufs, c.name = read.name →
      ∀ q, c.opPosition = some q → ∃ r ∈ b.tileReads, r.1 = read.name

/-- The operations of a run. -/
def members (operations : List Operation) (r : ℕ × ℕ) : List Operation :=
  (operations.drop r.1).take (r.2 + 1 - r.1)

/-- The runs with a loop nest, as groups : their operations and the nest. -/
def tiledGroups (operations : List Operation) (bufs : List RunBuffer) (chosen : ℕ → TileSpec)
    (rs : List (ℕ × ℕ)) : List (List Operation × List ℕ) :=
  (rs.filter fun r => !(tilingAt bufs chosen r.1).isUntiled).map fun r =>
    (members operations r, nestAt bufs chosen r.1)

/-- What the loop of `derive_tiling_groups` holds after position `at'`, which lies in a run
from `lo` and a stretch from `stretch`. -/
structure Tracks (operations : List Operation) (bufs : List RunBuffer) (chosen : ℕ → TileSpec)
    (st : Grouping) (stretch lo at' : ℕ) : Prop where
  stretch_le : stretch ≤ lo
  lo_le : lo ≤ at'
  same : ∀ p, stretch ≤ p → p ≤ at' → nestAt bufs chosen p = nestAt bufs chosen at'
  nest : st.currentNest = nestAt bufs chosen at'
  ops : st.currentOps =
    if nestAt bufs chosen at' = [] then [] else members operations (lo, at')
  producers : nestAt bufs chosen at' ≠ [] → ∀ name op, st.stretch name = some op ↔
    ∃ q, stretch ≤ q ∧ q ≤ at' ∧ operations[q]? = some op ∧ op.name = name

variable {st : Grouping} {l : List ℕ} {op : Operation} {at' lo p stretch : ℕ}

/-- A position with a loop nest has a buffer. -/
theorem exists_buffer_of_nest (h : nestAt bufs chosen p ≠ []) :
    ∃ b ∈ bufs, b.opPosition = some p := by
  cases hb : bufferAt bufs p with
  | none => simp [nestAt, tilingAt, hb] at h
  | some idx =>
    obtain ⟨hlt, hp, -⟩ := findIdx?_eq_some_iff_getElem.mp hb
    exact ⟨bufs[idx], getElem_mem hlt, by simpa using hp⟩

theorem foldr_max_le_iff {n : ℕ} :
    l.foldr (fun p n => max (p + 1) n) 0 ≤ n ↔ ∀ p ∈ l, p < n := by
  induction l with
  | nil => simp
  | cons a l ih => rw [foldr_cons, max_le_iff, ih, forall_mem_cons, Nat.succ_le_iff]

theorem nPositions_le_iff {n : ℕ} :
    nPositions bufs ≤ n ↔ ∀ b ∈ bufs, ∀ p, b.opPosition = some p → p < n := by
  rw [nPositions, foldr_max_le_iff]
  simp only [mem_filterMap, forall_exists_index, and_imp]
  exact ⟨fun h b hb p hp => h p b hb hp, fun h p b hb hp => h b hb p hp⟩

theorem nestAt_of_le (h : nPositions bufs ≤ p) : nestAt bufs chosen p = [] := by
  by_contra hne
  obtain ⟨b, hb, hp⟩ := exists_buffer_of_nest hne
  exact absurd (nPositions_le_iff.1 le_rfl b hb p hp) (not_lt.2 h)

theorem Describes.nPositions_le (h : Describes operations choices bufs chosen) :
    nPositions bufs ≤ operations.length := by
  refine nPositions_le_iff.2 fun b hb p hp => ?_
  obtain ⟨op, hop, -⟩ := h.position b hb p hp
  exact (List.getElem?_eq_some_iff.mp hop).1

/-- The buffers reach the end of the operation list if the last operation has one. -/
theorem Describes.nPositions_eq_iff (h : Describes operations choices bufs chosen) :
    nPositions bufs = operations.length ↔
      operations = [] ∨ ∃ b ∈ bufs, b.opPosition = some (operations.length - 1) := by
  have hlen := h.nPositions_le
  rcases operations.eq_nil_or_concat with rfl | ⟨init, last, rfl⟩
  · simpa using hlen
  · have hle : nPositions bufs ≤ init.length ↔
        ¬∃ b ∈ bufs, b.opPosition = some init.length := by
      rw [nPositions_le_iff]
      push Not
      refine forall₂_congr fun b hb => ⟨fun hlt heq => lt_irrefl _ (hlt _ heq), fun hne p hp => ?_⟩
      have hp' := nPositions_le_iff.1 hlen b hb p hp
      rw [length_concat] at hp'
      exact lt_of_le_of_ne (Nat.lt_succ_iff.mp hp') fun heq => hne (heq ▸ hp)
    rw [length_concat] at hlen ⊢
    simp only [concat_eq_append, append_eq_nil_iff, cons_ne_self, and_false, false_or,
      Nat.add_sub_cancel]
    rw [← not_iff_not, ← hle]
    omega

theorem Describes.nest (h : Describes operations choices bufs chosen)
    (hop : operations[p]? = some op) : nestAt bufs chosen p = (specOf choices op).levelCounts := by
  rw [nestAt, h.spec p op hop]

/-- The name of a buffer leads to its position. -/
theorem Describes.producerPosition_eq (h : Describes operations choices bufs chosen) {b : RunBuffer}
    (hb : b ∈ bufs) : producerPosition bufs b.name = b.opPosition := by
  have hfind : (bufs.find? fun c => decide (c.name = b.name)) = some b := by
    cases hc : bufs.find? fun c => decide (c.name = b.name) with
    | none => simpa using find?_eq_none.mp hc b hb
    | some c =>
      have hname : c.name = b.name := by simpa using find?_some hc
      rw [inj_on_of_nodup_map h.nodup_bufs (mem_of_find?_eq_some hc) hb hname]
  rw [producerPosition, hfind]
  rfl

/-- The reads `_tile_reads` keeps at a position. -/
theorem mem_tileReadsAt {q : ℕ} {reads : TileReads} :
    (q, reads) ∈ tileReadsAt bufs p ↔ ∃ b ∈ bufs, b.opPosition = some p ∧
      ∃ r ∈ b.tileReads, producerPosition bufs r.1 = some q ∧ q < p ∧ r.2 = reads := by
  simp only [tileReadsAt, mem_flatMap, mem_filter, decide_eq_true_eq, mem_filterMap, and_assoc]
  refine exists_congr fun b => and_congr_right fun _ => and_congr_right fun _ =>
    exists_congr fun r => and_congr_right fun _ => ?_
  cases hq : producerPosition bufs r.1 with
  | none => simp
  | some q' =>
    simp only [Option.some.injEq]
    constructor
    · intro h
      split_ifs at h with hle
      obtain ⟨rfl, rfl⟩ := Prod.mk.inj (Option.some.inj h)
      exact ⟨rfl, by omega, rfl⟩
    · rintro ⟨rfl, hlt, rfl⟩
      rw [if_neg (by omega)]

/-- An operation is cut from its stretch by both traversals or by neither. -/
theorem stretchMisread_eq_breaksAt (h : Describes operations choices bufs chosen)
    (htracks : Tracks operations bufs chosen st stretch lo at')
    (hop : operations[at' + 1]? = some op)
    (hnest : nestAt bufs chosen (at' + 1) = nestAt bufs chosen at')
    (htiled : nestAt bufs chosen at' ≠ []) :
    stretchMisread misread choices op (specOf choices op) st.stretch =
      breaksAt misread bufs chosen (at' + 1) stretch := by
  have hspec : tilingAt bufs chosen (at' + 1) = specOf choices op := h.spec _ op hop
  have huntiled : ¬(specOf choices op).isUntiled = true := by
    rw [← TileSpec.levelCounts_eq_nil_iff, ← h.nest hop, hnest]
    exact htiled
  obtain ⟨b, hb, hbpos⟩ := exists_buffer_of_nest (hnest ▸ htiled)
  rw [Bool.eq_iff_iff, breaksAt, hspec, if_neg huntiled]
  simp only [stretchMisread, any_eq_true, Bool.and_eq_true, decide_eq_true_eq,
    Bool.not_eq_true', TileReads.aligned, all_eq_false, mem_filter, Bool.not_eq_false]
  constructor
  · rintro ⟨read, hread, hmis⟩
    cases hstretch : st.stretch read.name with
    | none => simp [hstretch] at hmis
    | some producer =>
      rw [hstretch] at hmis
      obtain ⟨q, hsq, hqa, hq, hname⟩ := (htracks.producers htiled _ _).mp hstretch
      obtain ⟨c, hc, hcpos⟩ := exists_buffer_of_nest
        (show nestAt bufs chosen q ≠ [] from htracks.same q hsq hqa ▸ htiled)
      obtain ⟨producer', hq', hcname⟩ := h.position c hc q hcpos
      obtain rfl : producer = producer' := Option.some.inj (hq.symm.trans hq')
      have hcread : c.name = read.name := hcname.symm.trans hname
      obtain ⟨r, hr, hrname⟩ := h.reads_complete b hb _ op hbpos hop read hread c hc hcread q hcpos
      have hprod : producerPosition bufs r.1 = some q := by
        rw [hrname, ← hcread, h.producerPosition_eq hc, hcpos]
      have hreads := h.reads_sound b hb _ op hbpos hop r hr q producer hprod hq
      refine ⟨(q, r.2), mem_tileReadsAt.mpr ⟨b, hb, hbpos, r, hr, hprod, by omega, rfl⟩, hsq, ?_⟩
      rw [hreads]
      refine ⟨read, ⟨hread, hname.symm⟩, ?_⟩
      rw [h.spec q producer hq]
      exact hmis
  · rintro ⟨⟨q, reads⟩, hmem, hsq, read, ⟨hread, hname⟩, hmis⟩
    obtain ⟨b', hb', hbpos', r, hr, hprod, hlt, rfl⟩ := mem_tileReadsAt.mp hmem
    obtain rfl := h.position_inj b' hb' b hb _ hbpos' hbpos
    obtain ⟨c, hc, hcpos⟩ : ∃ c ∈ bufs, c.opPosition = some q := by
      obtain ⟨c, hfind, hpos⟩ := Option.bind_eq_some_iff.mp hprod
      exact ⟨c, mem_of_find?_eq_some hfind, hpos⟩
    obtain ⟨producer, hq, -⟩ := h.position c hc q hcpos
    have hreads := h.reads_sound b' hb' _ op hbpos hop r hr q producer hprod hq
    rw [hreads] at hread hname hmis
    have hstretch : st.stretch read.name = some producer :=
      (htracks.producers htiled _ _).mpr ⟨q, hsq, by omega, hq, hname.symm⟩
    refine ⟨read, hread, ?_⟩
    rw [h.spec q producer hq] at hmis
    rw [hstretch]
    exact hmis

/-! ### One step of the grouping loop -/

theorem members_succ (hlo : lo ≤ at' + 1) (hop : operations[at' + 1]? = some op) :
    members operations (lo, at' + 1) = (operations.drop lo).take (at' + 1 - lo) ++ [op] := by
  have hget : (operations.drop lo)[at' + 1 - lo]? = some op := by
    rw [getElem?_drop, show lo + (at' + 1 - lo) = at' + 1 by omega, hop]
  rw [members, show at' + 1 + 1 - lo = at' + 1 - lo + 1 by omega, take_add_one, hget]
  rfl

theorem members_self (hop : operations[at']? = some op) :
    members operations (at', at') = [op] := by
  obtain ⟨hlt, rfl⟩ := List.getElem?_eq_some_iff.mp hop
  rw [members, drop_eq_getElem_cons hlt, Nat.add_sub_cancel_left]
  rfl

theorem members_ne_nil (hlo : lo ≤ at') (hlt : at' < operations.length) :
    members operations (lo, at') ≠ [] := by
  rw [members]
  refine ne_nil_of_length_pos ?_
  rw [length_take, length_drop]
  omega

/-- A position that starts a stretch. -/
theorem tracks_start (misread : Misread) (h : Describes operations choices bufs chosen)
    (st : Grouping) (hop : operations[p]? = some op)
    (hnest : nestAt bufs chosen p = [] ∨ nestAt bufs chosen p ≠ st.currentNest) :
    (deriveStep misread choices st op).groups = st.finish ∧
      Tracks operations bufs chosen (deriveStep misread choices st op) p p p := by
  have hcond : ¬((specOf choices op).levelCounts ≠ [] ∧
      (specOf choices op).levelCounts = st.currentNest) := by
    rw [← h.nest hop]
    tauto
  have hregroup : regroup misread choices st op =
      { groups := st.finish
        currentOps := if nestAt bufs chosen p = [] then [] else [op]
        currentNest := nestAt bufs chosen p
        stretch := fun _ => none } := by
    rw [regroup, if_neg hcond, ← h.nest hop]
  have hsame : ∀ q, p ≤ q → q ≤ p → nestAt bufs chosen q = nestAt bufs chosen p := by
    intro q h₁ h₂
    rw [Nat.le_antisymm h₂ h₁]
  rw [deriveStep, ← h.nest hop, hregroup]
  by_cases hnil : nestAt bufs chosen p = []
  · rw [if_pos hnil]
    exact ⟨rfl, le_rfl, le_rfl, hsame, rfl, by simp [hnil], fun hne => absurd hnil hne⟩
  · rw [if_neg hnil]
    refine ⟨rfl, le_rfl, le_rfl, hsame, rfl, ?_, fun _ name op' => ?_⟩
    · rw [if_neg hnil, if_neg hnil, members_self hop]
    · dsimp only
      constructor
      · intro heq
        by_cases hname : name = op.name
        · rw [hname, update_self] at heq
          obtain rfl := Option.some.inj heq
          exact ⟨p, le_rfl, le_rfl, hop, hname.symm⟩
        · rw [update_of_ne hname] at heq
          cases heq
      · rintro ⟨q, h₁, h₂, hq, rfl⟩
        obtain rfl := Nat.le_antisymm h₂ h₁
        obtain rfl := Option.some.inj (hop.symm.trans hq)
        rw [update_self]

theorem Tracks.same_succ (htracks : Tracks operations bufs chosen st stretch lo at')
    (hnest : nestAt bufs chosen (at' + 1) = nestAt bufs chosen at') (p : ℕ) (h₁ : stretch ≤ p)
    (h₂ : p ≤ at' + 1) : nestAt bufs chosen p = nestAt bufs chosen (at' + 1) := by
  rcases Nat.le_succ_iff.mp h₂ with hp | rfl
  · rw [hnest, htracks.same p h₁ hp]
  · rfl

/-- A position that goes on with the stretch : in the run, or in a new one. -/
theorem tracks_next (misread : Misread) (h : Describes operations choices bufs chosen)
    (htracks : Tracks operations bufs chosen st stretch lo at')
    (hop : operations[at' + 1]? = some op)
    (hnest : nestAt bufs chosen (at' + 1) = nestAt bufs chosen at')
    (htiled : nestAt bufs chosen at' ≠ []) :
    let cut := breaksAt misread bufs chosen (at' + 1) stretch
    (deriveStep misread choices st op).groups = (if cut then st.finish else st.groups) ∧
      Tracks operations bufs chosen (deriveStep misread choices st op) stretch
        (if cut then at' + 1 else lo) (at' + 1) := by
  intro cut
  have hspec : (specOf choices op).levelCounts = nestAt bufs chosen at' := by
    rw [← h.nest hop, hnest]
  have hcut : stretchMisread misread choices op (specOf choices op) st.stretch = cut :=
    stretchMisread_eq_breaksAt h htracks hop hnest htiled
  have hops : st.currentOps = members operations (lo, at') := by rw [htracks.ops, if_neg htiled]
  have hlt : at' + 1 < operations.length := (List.getElem?_eq_some_iff.mp hop).1
  have hne : st.currentOps ≠ [] := hops ▸ members_ne_nil htracks.lo_le (by omega)
  have hlo := htracks.lo_le
  have hsl := htracks.stretch_le
  have hregroup : regroup misread choices st op =
      { groups := if cut then st.finish else st.groups
        currentOps := members operations (if cut then at' + 1 else lo, at' + 1)
        currentNest := st.currentNest
        stretch := st.stretch } := by
    rw [regroup, if_pos ⟨hspec ▸ htiled, hspec.trans htracks.nest.symm⟩, hcut]
    cases cut with
    | false =>
      have hmembers : members operations (lo, at') ++ [op] = members operations (lo, at' + 1) :=
        (members_succ (by omega) hop).symm
      simp [hops, hmembers]
    | true => simp [Grouping.finish, hne, members_self hop]
  have hproducers : ∀ name op', Function.update st.stretch op.name (some op) name = some op' ↔
      ∃ q, stretch ≤ q ∧ q ≤ at' + 1 ∧ operations[q]? = some op' ∧ op'.name = name := by
    intro name op'
    by_cases hname : name = op.name
    · rw [hname, update_self]
      constructor
      · rintro heq
        obtain rfl := Option.some.inj heq
        exact ⟨at' + 1, by omega, le_rfl, hop, rfl⟩
      · rintro ⟨q, -, -, hq, hname'⟩
        rw [inj_on_of_nodup_map h.nodup_names (mem_of_getElem? hop)
          (mem_of_getElem? hq) hname'.symm]
    · rw [update_of_ne hname, htracks.producers htiled]
      constructor
      · rintro ⟨q, h₁, h₂, hq⟩
        exact ⟨q, h₁, by omega, hq⟩
      · rintro ⟨q, h₁, h₂, hq, hname'⟩
        refine ⟨q, h₁, ?_, hq, hname'⟩
        by_contra hlt
        obtain rfl : q = at' + 1 := by omega
        obtain rfl := Option.some.inj (hop.symm.trans hq)
        exact hname hname'.symm
  rw [deriveStep, hspec, if_neg htiled, hregroup]
  refine ⟨rfl, ?_, ?_, htracks.same_succ hnest, htracks.nest.trans hnest.symm, ?_,
    fun _ => hproducers⟩
  · split_ifs <;> omega
  · split_ifs <;> omega
  · have htiled' : nestAt bufs chosen (at' + 1) ≠ [] := hnest ▸ htiled
    exact (if_neg htiled').symm

/-- Untiled operations form no group. -/
theorem finish_foldl_of_untiled {l : List Operation}
    (hl : ∀ op ∈ l, (specOf choices op).levelCounts = []) :
    (l.foldl (deriveStep misread choices) st).finish = st.finish := by
  induction l generalizing st with
  | nil => rfl
  | cons op l ih =>
    have hop := hl op mem_cons_self
    rw [foldl_cons, ih fun o ho => hl o (mem_cons_of_mem op ho), deriveStep, if_pos hop,
      regroup, if_neg (by simp [hop])]
    simp [Grouping.finish, hop]

/-- The groups still to be formed are the tiled ones of the runs still to be yielded. -/
theorem finish_foldl_deriveStep (h : Describes operations choices bufs chosen) {k : ℕ}
    (htracks : Tracks operations bufs chosen st stretch lo at')
    (hk : at' + k + 1 = nPositions bufs) :
    ((operations.drop (at' + 1)).foldl (deriveStep misread choices) st).finish =
      st.groups ++ tiledGroups operations bufs chosen
        (tailRuns misread bufs chosen k stretch lo at') := by
  have hlen := h.nPositions_le
  have hfinish : ∀ {st : Grouping} {stretch lo at' : ℕ},
      Tracks operations bufs chosen st stretch lo at' → at' < operations.length →
      st.finish = st.groups ++ tiledGroups operations bufs chosen [(lo, at')] := by
    intro st stretch lo at' htracks hlt
    have hsame : nestAt bufs chosen lo = nestAt bufs chosen at' :=
      htracks.same lo htracks.stretch_le htracks.lo_le
    have huntiled : (tilingAt bufs chosen lo).isUntiled = decide (nestAt bufs chosen at' = []) := by
      rw [← hsame, nestAt, Bool.eq_iff_iff, decide_eq_true_eq, TileSpec.levelCounts_eq_nil_iff]
    have hne := members_ne_nil htracks.lo_le hlt
    by_cases hnil : nestAt bufs chosen at' = []
    · simp [Grouping.finish, htracks.ops, hnil, tiledGroups, huntiled]
    · simp [Grouping.finish, htracks.ops, hnil, tiledGroups, huntiled, hne, htracks.nest, hsame]
  induction k generalizing st stretch lo at' with
  | zero =>
    rw [finish_foldl_of_untiled, hfinish htracks (by omega), tailRuns]
    intro op hop
    obtain ⟨j, hj⟩ := mem_iff_getElem?.mp hop
    rw [getElem?_drop] at hj
    rw [← h.nest hj, nestAt_of_le (by omega)]
  | succ k ih =>
    have hlt : at' + 1 < operations.length := by omega
    have hop : operations[at' + 1]? = some operations[at' + 1] := getElem?_eq_getElem hlt
    have hcons : ∀ r rs, tiledGroups operations bufs chosen (r :: rs) =
        tiledGroups operations bufs chosen [r] ++ tiledGroups operations bufs chosen rs := by
      intro r rs
      rw [tiledGroups, tiledGroups, tiledGroups, ← map_append, ← filter_append, singleton_append]
    rw [drop_eq_getElem_cons hlt, foldl_cons, tailRuns]
    by_cases hnest : nestAt bufs chosen (at' + 1) = nestAt bufs chosen at'
    · rw [if_pos hnest]
      by_cases htiled : nestAt bufs chosen at' = []
      · -- An untiled stretch goes on : the loop starts afresh at every position of it.
        have hnil : nestAt bufs chosen (at' + 1) = [] := hnest.trans htiled
        obtain ⟨hgroups, hfresh⟩ := tracks_start misread h st hop (Or.inl hnil)
        have hlo := htracks.lo_le
        have hnext : Tracks operations bufs chosen
            (deriveStep misread choices st operations[at' + 1]) stretch lo (at' + 1) := by
          refine ⟨htracks.stretch_le, by omega, htracks.same_succ hnest, hfresh.nest, ?_,
            fun hne => absurd hnil hne⟩
          rw [hfresh.ops, if_pos hnil, if_pos hnil]
        have hbreaks : breaksAt misread bufs chosen (at' + 1) stretch = false := by
          rw [breaksAt, if_pos (TileSpec.levelCounts_eq_nil_iff.mp hnil)]
        have hcurrent : st.finish = st.groups := by
          rw [Grouping.finish, htracks.ops, if_pos htiled, if_pos rfl]
        rw [ih hnext (by omega), hgroups, hcurrent, hbreaks, if_neg Bool.false_ne_true]
      · obtain ⟨hgroups, hnext⟩ := tracks_next misread h htracks hop hnest htiled
        rw [ih hnext (by omega), hgroups]
        split_ifs
        · rw [hfinish htracks (by omega), append_assoc, ← hcons]
        · rfl
    · obtain ⟨hgroups, hnext⟩ := tracks_start misread h st hop
        (Or.inr (htracks.nest ▸ hnest))
      rw [if_neg hnest, ih hnext (by omega), hgroups, hfinish htracks (by omega),
        append_assoc, ← hcons]

/-- The tiled runs of the annealer are the groups of the operations, and its runs partition the
positions up to its last buffer, after which nothing is tiled. -/
theorem runs_eq_groups (h : Describes operations choices bufs chosen) :
    tiledGroups operations bufs chosen (runs misread bufs chosen) =
        deriveTilingGroups misread choices operations ∧
      ((runs misread bufs chosen).flatMap fun r => List.range' r.1 (r.2 + 1 - r.1)) =
        List.range (nPositions bufs) ∧
      nPositions bufs ≤ operations.length ∧
      (∀ p, nPositions bufs ≤ p → (tilingAt bufs chosen p).isUntiled = true) ∧
      (nPositions bufs = operations.length ↔
        operations = [] ∨ ∃ b ∈ bufs, b.opPosition = some (operations.length - 1)) := by
  have hlen := h.nPositions_le
  have huntiled : ∀ p, nPositions bufs ≤ p → (tilingAt bufs chosen p).isUntiled = true :=
    fun p hp => TileSpec.levelCounts_eq_nil_iff.mp
      (show nestAt bufs chosen p = [] from nestAt_of_le hp)
  rcases Nat.eq_zero_or_pos (nPositions bufs) with hzero | hpos
  · have hgroups : deriveTilingGroups misread choices operations = [] := by
      refine finish_foldl_of_untiled fun op hop => ?_
      obtain ⟨p, hp⟩ := mem_iff_getElem?.mp hop
      rw [← h.nest hp, nestAt_of_le (by omega)]
    rw [runs_eq_nil hzero, hgroups, hzero]
    exact ⟨rfl, rfl, Nat.zero_le _, fun p _ => huntiled p (by omega), hzero ▸ h.nPositions_eq_iff⟩
  · obtain ⟨k, hk⟩ : ∃ k, k + 1 = nPositions bufs := ⟨nPositions bufs - 1, by omega⟩
    have hop : operations[0]? = some operations[0] := getElem?_eq_getElem (by omega)
    have hfold : operations.foldl (deriveStep misread choices) .empty =
        (operations.drop 1).foldl (deriveStep misread choices)
          (deriveStep misread choices .empty operations[0]) := by
      rw [← foldl_cons, ← drop_eq_getElem_cons (by omega), drop_zero]
    have hcurrent : nestAt bufs chosen 0 = [] ∨ nestAt bufs chosen 0 ≠ Grouping.empty.currentNest :=
      em _
    obtain ⟨hgroups, hstart⟩ := tracks_start misread h .empty hop hcurrent
    have hderive : deriveTilingGroups misread choices operations =
        tiledGroups operations bufs chosen (tailRuns misread bufs chosen k 0 0 0) := by
      rw [deriveTilingGroups, hfold, finish_foldl_deriveStep h hstart (k := k) (by omega), hgroups]
      rfl
    rw [runs_eq_tailRuns hk, hderive, flatMap_tailRuns le_rfl, range_eq_range',
      show 0 + k + 1 - 0 = nPositions bufs by omega]
    exact ⟨rfl, rfl, hlen, huntiled, h.nPositions_eq_iff⟩

end Same

/-! ### A cut stretch, and an operation without a buffer -/

/-- An operation that reads nothing. -/
def opA : Operation := ⟨"op0", "a", []⟩

/-- An operation that reads `a`. -/
def opB : Operation := ⟨"op1", "b", [⟨"a", 0⟩]⟩

/-- A last operation that the solver has no buffer for. -/
def opC : Operation := ⟨"op2", "c", [⟨"b", 0⟩]⟩

/-- `a` and `b` are cut in two along one dimension. -/
def halves (name : String) : Option TileSpec :=
  if name = "op0" ∨ name = "op1" then some ⟨[⟨0, 2, false⟩]⟩ else none

/-- The buffers of `a` and `b`. -/
def bufsAB : List RunBuffer :=
  [⟨"a", some 0, []⟩, ⟨"b", some 1, [("a", ⟨opA, opB⟩)]⟩]

theorem describes_abc :
    Describes [opA, opB, opC] halves bufsAB (fun _ => ⟨[⟨0, 2, false⟩]⟩) where
  nodup_names := by decide
  nodup_bufs := by decide
  position := by
    intro b hb p hp
    simp only [bufsAB, mem_cons, not_mem_nil, or_false] at hb
    rcases hb with rfl | rfl
    · obtain rfl := Option.some.inj hp
      exact ⟨opA, rfl, rfl⟩
    · obtain rfl := Option.some.inj hp
      exact ⟨opB, rfl, rfl⟩
  position_inj := by decide
  spec := by
    intro p op hop
    match p with
    | 0 | 1 | 2 =>
      obtain rfl := Option.some.inj hop
      decide
  reads_sound := by
    intro b hb p consumer hp hconsumer r hr q producer hq hproducer
    simp only [bufsAB, mem_cons, not_mem_nil, or_false] at hb
    rcases hb with rfl | rfl
    · cases hr
    · obtain rfl : r = ("a", ⟨opA, opB⟩) := mem_singleton.mp hr
      obtain rfl := Option.some.inj hp
      obtain rfl := Option.some.inj hconsumer
      obtain rfl : 0 = q := Option.some.inj hq
      obtain rfl := Option.some.inj hproducer
      rfl
  reads_complete := by
    intro b hb p consumer hp hconsumer read hread c hc hname q hq
    simp only [bufsAB, mem_cons, not_mem_nil, or_false] at hb
    rcases hb with rfl | rfl
    · obtain rfl := Option.some.inj hp
      obtain rfl := Option.some.inj hconsumer
      cases hread
    · obtain rfl := Option.some.inj hp
      obtain rfl := Option.some.inj hconsumer
      obtain rfl : read = ⟨"a", 0⟩ := mem_singleton.mp hread
      exact ⟨("a", ⟨opA, opB⟩), mem_singleton.mpr rfl, rfl⟩

/-- The reader is cut from what it misreads. -/
theorem runs_eq_groups_cut :
    tiledGroups [opA, opB, opC] bufsAB (fun _ => ⟨[⟨0, 2, false⟩]⟩) [(0, 0), (1, 1)] =
      deriveTilingGroups (fun _ _ _ _ _ => true) halves [opA, opB, opC] := by
  have hruns : runs (fun _ _ _ _ _ => true) bufsAB (fun _ => ⟨[⟨0, 2, false⟩]⟩) =
      [(0, 0), (1, 1)] := by decide
  rw [← hruns]
  exact (runs_eq_groups describes_abc).1

/-- No run holds the position of the last operation. -/
theorem runs_miss_last :
    Describes [opA, opB, opC] halves bufsAB (fun _ => ⟨[⟨0, 2, false⟩]⟩) ∧
      ((runs (fun _ _ _ _ _ => false) bufsAB fun _ => ⟨[⟨0, 2, false⟩]⟩).flatMap fun r =>
        List.range' r.1 (r.2 + 1 - r.1)) = [0, 1] ∧
      [0, 1] ≠ List.range [opA, opB, opC].length :=
  ⟨describes_abc, by decide, by decide⟩

end Annealer

end TorchSpyre
