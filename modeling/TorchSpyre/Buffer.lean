import Mathlib
import TorchSpyre.Checked

/-!
# Lifetime-bound buffers

The record every scratchpad layout solver is given, and the checks all solvers share
(`scratchpad/plan_solver.py`). A buffer is live on the half-open interval of ticks
`[startTime, endTime)` : its first to its last use, widened by the counted-loop
overrides. The overrides never narrow it, so a lifetime is never empty
(`startTime_lt_endTime`).

An in-place child may take the storage of a declared parent that dies on the tick
the child is born. `checkInPlaceRelationships` rejects every other declared pair :
past it, parent and child share exactly the child's first tick, the parent has been
read, and the child is no larger (`InPlacePairOk`).
-/

open List

namespace TorchSpyre

open Checked

/-- A group of readers of `sourceName` that take it through one copy, in another division over
the cores (`scratchpad/lx_relayout.py`). -/
structure LXRelayoutPlan where
  sourceName : String
  consumerNames : List String
  destinationFootprintBytes : ℕ := 0
deriving DecidableEq

/-- A candidate for scratchpad placement. `size` is in bytes. `pairedWith` names the
buffers placed atomically with this one, `lxRelayoutPlans` the groups it is the source of.
`uses` is the list of operations that touch the buffer, in order and without repeats. -/
structure LifetimeBoundBuffer where
  name : String
  size : ℕ
  uses : List ℤ
  firstUseIsRead : Bool := false
  inPlaceParents : List String := []
  residencyReason : Option String := none
  untiledBar : Option String := none
  lifetimeStartOverride : Option ℤ := none
  lifetimeEndOverride : Option ℤ := none
  pairedWith : List String := []
  lxRelayoutPlans : List LXRelayoutPlan := []
  uses_ne : uses ≠ []
  uses_increasing : uses.Pairwise (· < ·)
deriving DecidableEq

namespace LifetimeBoundBuffer

/-- The first operation that touches the buffer. -/
def firstUse (b : LifetimeBoundBuffer) : ℤ :=
  b.uses.head b.uses_ne

/-- The last operation that touches the buffer. -/
def lastUse (b : LifetimeBoundBuffer) : ℤ :=
  b.uses.getLast b.uses_ne

/-- First live tick. -/
def startTime (b : LifetimeBoundBuffer) : ℤ :=
  min b.firstUse (b.lifetimeStartOverride.getD b.firstUse)

/-- One past the last live tick. The source widens with `override or nominal`, which
drops an override of zero. -/
def endTime (b : LifetimeBoundBuffer) : ℤ :=
  match b.lifetimeEndOverride with
  | none => b.lastUse + 1
  | some t => max (b.lastUse + 1) (if t = 0 then b.lastUse + 1 else t)

/-- The two buffers are live on a common tick. -/
def overlapsInTime (a b : LifetimeBoundBuffer) : Bool :=
  decide (a.startTime < b.endTime) && decide (b.startTime < a.endTime)

theorem startTime_le_firstUse (b : LifetimeBoundBuffer) : b.startTime ≤ b.firstUse :=
  min_le_left _ _

theorem lastUse_lt_endTime (b : LifetimeBoundBuffer) : b.lastUse < b.endTime := by
  unfold endTime
  split
  · omega
  · omega

theorem firstUse_le (b : LifetimeBoundBuffer) {u : ℤ} (hu : u ∈ b.uses) : b.firstUse ≤ u := by
  obtain ⟨v, us, hv⟩ := exists_cons_of_ne_nil b.uses_ne
  have hinc := b.uses_increasing
  simp only [firstUse, hv, head_cons] at hu hinc ⊢
  rcases mem_cons.1 hu with rfl | hu
  · exact le_rfl
  · exact (rel_of_pairwise_cons hinc hu).le

theorem firstUse_le_lastUse (b : LifetimeBoundBuffer) : b.firstUse ≤ b.lastUse :=
  b.firstUse_le (getLast_mem b.uses_ne)

/-- A lifetime is never empty. -/
theorem startTime_lt_endTime (b : LifetimeBoundBuffer) : b.startTime < b.endTime :=
  (b.startTime_le_firstUse.trans b.firstUse_le_lastUse).trans_lt b.lastUse_lt_endTime

theorem overlapsInTime_iff {a b : LifetimeBoundBuffer} :
    a.overlapsInTime b = true ↔ a.startTime < b.endTime ∧ b.startTime < a.endTime := by
  simp [overlapsInTime]

/-- The parent has storage to hand over : some use of it is a read. For a computed
buffer the first use is the write, so it needs a use strictly after the first. -/
def canHandOver (b : LifetimeBoundBuffer) : Bool :=
  b.firstUseIsRead || (decide (1 < b.uses.length) && decide (b.firstUse < b.lastUse))

end LifetimeBoundBuffer

/-- The addresses of a buffer placed at `a`. -/
def slot (b : LifetimeBoundBuffer) (a : ℕ) : Set ℕ :=
  Set.Ico a (a + b.size)

theorem disjoint_slot {x y : LifetimeBoundBuffer} {a b : ℕ} (h : a + x.size ≤ b ∨ b + y.size ≤ a) :
    Disjoint (slot x a) (slot y b) := by
  rw [slot, slot, Set.Ico_disjoint_Ico]
  omega

/-! ## Looking buffers up by name -/

/-- The buffer a name resolves to. The source builds a dictionary, in which the last
buffer of a name wins. -/
def bufByName (buffers : List LifetimeBoundBuffer) (name : String) :
    Option LifetimeBoundBuffer :=
  buffers.reverse.find? fun b => b.name = name

/-- No two buffers share a name. -/
def UniquelyNamed (buffers : List LifetimeBoundBuffer) : Prop :=
  (buffers.map (·.name)).Nodup

instance (buffers : List LifetimeBoundBuffer) : Decidable (UniquelyNamed buffers) :=
  inferInstanceAs (Decidable (List.Nodup _))

variable {b child parent : LifetimeBoundBuffer} {buffers : List LifetimeBoundBuffer} {name : String}

theorem UniquelyNamed.eq_of_name_eq (hu : UniquelyNamed buffers) {a : LifetimeBoundBuffer}
    (ha : a ∈ buffers) (hb : b ∈ buffers) (h : a.name = b.name) : a = b :=
  inj_on_of_nodup_map hu ha hb h

theorem mem_of_bufByName (h : bufByName buffers name = some b) :
    b ∈ buffers ∧ b.name = name := by
  refine ⟨mem_reverse.1 (mem_of_find?_eq_some h), ?_⟩
  simpa using find?_some h

/-- With unique names, a name resolves to the one buffer that carries it. -/
theorem bufByName_eq_some_iff (hu : UniquelyNamed buffers) :
    bufByName buffers name = some b ↔ b ∈ buffers ∧ b.name = name := by
  refine ⟨mem_of_bufByName, ?_⟩
  rintro ⟨hb, hn⟩
  cases h : bufByName buffers name with
  | none =>
    have hnone := find?_eq_none.1 h b (mem_reverse.2 hb)
    simp [hn] at hnone
  | some c =>
    obtain ⟨hc, hcn⟩ := mem_of_bufByName h
    rw [hu.eq_of_name_eq hc hb (hcn.trans hn.symm)]

/-! ## In-place pairs -/

/-- Reject an in-place parent whose storage is never read before handover. -/
def checkInPlaceParentIsRead (parent : LifetimeBoundBuffer) (childName : String) :
    Except String Unit :=
  let name := parent.name
  let uses := parent.uses
  guardE (parent.canHandOver = true)
    (s!"In-place parent {name} is a computed buffer that is never read (uses={uses}), so it " ++
      s!"cannot hand its storage to child {childName}")

/-- The checks on one declared pair, in the source's order. -/
def checkInPlacePair (parent child : LifetimeBoundBuffer) : Except String Unit := do
  let pn := parent.name
  let cn := child.name
  let pe := parent.endTime
  let cs := child.startTime + 1
  let ps := parent.size
  let csz := child.size
  guardE (parent.endTime = child.startTime + 1)
    s!"In-place parent {pn}.end_time={pe} must equal child {cn}.start_time+1={cs}"
  checkInPlaceParentIsRead parent child.name
  guardE (child.size ≤ parent.size)
    s!"In-place child {cn}.size={csz} must be <= parent {pn}.size={ps}"

/-- Reject any declared in-place pair that violates a required invariant. A parent
that is not among the buffers is skipped. -/
def checkInPlaceRelationships (buffers : List LifetimeBoundBuffer) : Except String Unit :=
  checkAll (fun child => checkAll (fun parentName =>
    match bufByName buffers parentName with
    | none => .ok ()
    | some parent => checkInPlacePair parent child) child.inPlaceParents) buffers

/-- What the checks establish of a declared pair. -/
structure InPlacePairOk (parent child : LifetimeBoundBuffer) : Prop where
  handoff : parent.endTime = child.startTime + 1
  isRead : parent.canHandOver = true
  fits : child.size ≤ parent.size

theorem checkInPlacePair_eq_ok_iff {u : Unit} :
    checkInPlacePair parent child = .ok u ↔ InPlacePairOk parent child := by
  simp only [checkInPlacePair, checkInPlaceParentIsRead, bind_eq_ok_iff, guardE_eq_ok_iff]
  constructor
  · rintro ⟨-, h₁, -, h₂, h₃⟩
    exact ⟨h₁, h₂, h₃⟩
  · rintro ⟨h₁, h₂, h₃⟩
    exact ⟨(), h₁, (), h₂, h₃⟩

/-- `child` declares `parent`, and both are in the solve. -/
def DeclaredPair (buffers : List LifetimeBoundBuffer) (parent child : LifetimeBoundBuffer) :
    Prop :=
  parent ∈ buffers ∧ child ∈ buffers ∧ parent.name ∈ child.inPlaceParents

/-- Every declared pair of an accepted list meets the in-place invariants. -/
theorem InPlacePairOk.of_check (hu : UniquelyNamed buffers)
    (h : checkInPlaceRelationships buffers = .ok ()) (hd : DeclaredPair buffers parent child) :
    InPlacePairOk parent child := by
  obtain ⟨hp, hc, hn⟩ := hd
  have hpair := checkAll_eq_ok_iff.1 (checkAll_eq_ok_iff.1 h child hc) _ hn
  rw [(bufByName_eq_some_iff hu).2 ⟨hp, rfl⟩] at hpair
  exact checkInPlacePair_eq_ok_iff.1 hpair

/-! ## Buffers barred from the scratchpad -/

/-- Why a buffer may not reside in LX, or `none` if it may. Only a solver that chooses
among the menu's tilings can lift an untiled bar. -/
def excluded (limit : ℕ) (tilingsFromMenu : Bool) (b : LifetimeBoundBuffer) : Option String :=
  if b.residencyReason.isSome then b.residencyReason
  else if b.untiledBar.isSome && !tilingsFromMenu then b.untiledBar
  else if limit < b.size then
    let sz := b.size
    some s!"min footprint {sz} B > LX capacity {limit} B"
  else none

/-- The buffers a placement-only solver may place. -/
def placeable (limit : ℕ) (buffers : List LifetimeBoundBuffer) : List LifetimeBoundBuffer :=
  buffers.filter fun b => (excluded limit false b).isNone

theorem mem_placeable {limit : ℕ} :
    b ∈ placeable limit buffers ↔ b ∈ buffers ∧ excluded limit false b = none := by
  simp [placeable]

theorem UniquelyNamed.placeable (hu : UniquelyNamed buffers) (limit : ℕ) :
    UniquelyNamed (placeable limit buffers) :=
  hu.sublist (filter_sublist.map _)

end TorchSpyre
