import Mathlib
import TorchSpyre.Pool.Allocator

/-!
# Runs of the free-list allocator

`allocate` as the source writes it : one search, one check against the segment, and then the
fields one by one (`allocateM`). It is the function of `Pool.Allocator`, and an allocation that
is refused changes nothing (`run_allocateM`).

A run is any sequence of allocations of positive sizes and of frees of blocks that are handed
out. The blocks handed out and the free ones tile the pool at every point of a run, and the
counters are what they are called (`Run.sound`).
-/

open List hiding Disjoint

namespace TorchSpyre

namespace Pool

/-- The bytes of a block. -/
def Block.bytes (b : Block) : Set ℕ :=
  Set.Ico b.offset (b.offset + b.size)

namespace Allocator

/-! ## The statements of `allocate` -/

/-- `allocate`, statement by statement. The state is the object. -/
def allocateM (size : ℕ) : StateM Allocator (Option ℕ) := do
  let self ← get
  let found := self.freeBlocks.zipIdx.find? fun p => large size p.1
  let (offset, newPoolEnd) := match found with
    | some (block, _) => (block.offset, self.poolEnd)
    | none => (self.poolEnd, self.poolEnd + size)
  if newPoolEnd > self.segmentSize then
    return none
  if let some (block, i) := found then
    modify fun self => { self with freeBlocks := self.freeBlocks.eraseIdx i }
    if 0 < block.size - size then
      modify fun self => { self with
        freeBlocks := self.freeBlocks ++ [⟨block.offset + size, block.size - size⟩] }
  modify fun self => { self with poolEnd := newPoolEnd }
  modify fun self => { self with currentlyAllocated := self.currentlyAllocated + size }
  modify fun self => { self with peakUsage := max self.currentlyAllocated self.peakUsage }
  return some offset

/-- A search that counts. -/
theorem find?_zipIdx {α : Type} (p : α → Bool) : ∀ (l : List α) (k : ℕ),
    ((l.zipIdx k).find? fun x => p x.1) = none ∧ l.find? p = none ∨
      ∃ x i, ((l.zipIdx k).find? fun x => p x.1) = some (x, k + i) ∧ l.find? p = some x ∧
        l.eraseIdx i = l.eraseP p
  | [], _ => .inl ⟨rfl, rfl⟩
  | x :: l, k => by
    by_cases hx : p x = true
    · exact .inr ⟨x, 0, by simp [hx], by simp [hx], by simp [hx]⟩
    · rcases find?_zipIdx p l (k + 1) with ⟨h₁, h₂⟩ | ⟨y, i, h₁, h₂, h₃⟩
      · exact .inl ⟨by simp [hx, h₁], by simp [hx, h₂]⟩
      · exact .inr ⟨y, i + 1, by simp [hx, h₁, Nat.add_right_comm, Nat.add_assoc],
          by simp [hx, h₂], by simp [hx, h₃]⟩

/-- What `allocate` returns, and the object after it. -/
def allocateRun (a : Allocator) (size : ℕ) : Option ℕ × Allocator :=
  Id.run ((allocateM size).run a)

/-- The statements compute `allocate`, and refuse without a change. -/
theorem allocateRun_eq (a : Allocator) (size : ℕ) :
    a.allocateRun size =
      ((a.allocate size).map Prod.fst, ((a.allocate size).map Prod.snd).getD a) := by
  rcases find?_zipIdx (large size) a.freeBlocks 0 with ⟨h₁, h₂⟩ | ⟨block, i, h₁, h₂, h₃⟩
  · by_cases hfit : a.segmentSize < a.poolEnd + size
    · simp [allocateRun, allocateM, allocate, h₁, h₂, hfit]
    · simp [allocateRun, allocateM, allocate, h₁, h₂, hfit, charge]
  · by_cases hfit : a.segmentSize < a.poolEnd
    · simp [allocateRun, allocateM, allocate, h₁, h₂, hfit]
    · by_cases hrem : size < block.size
      · simp [allocateRun, allocateM, allocate, h₁, h₂, hfit, charge, remainder, hrem, h₃]
      · simp [allocateRun, allocateM, allocate, h₁, h₂, hfit, charge, remainder, hrem, h₃]

variable {a a' : Allocator} {block : Block} {past : List Allocator} {inUse : List Block}
  {offset size : ℕ}

theorem allocateRun_some (h : a.allocateRun size = (some offset, a')) :
    a.allocate size = some (offset, a') := by
  rw [allocateRun_eq] at h
  cases hres : a.allocate size with
  | none => simp [hres] at h
  | some r =>
    obtain ⟨h₁, h₂⟩ := Prod.mk.inj h
    simp only [hres, Option.map_some, Option.some.injEq, Option.getD_some] at h₁ h₂
    rw [← h₁, ← h₂]

theorem allocateRun_none (h : a.allocateRun size = (none, a')) :
    a' = a := by
  rw [allocateRun_eq] at h
  cases hres : a.allocate size with
  | none => simpa [hres] using h.symm
  | some r => simp [hres] at h

/-! ## Tiling -/

/-- The blocks in use and the free ones tile the pool, and the bytes in use are counted. -/
structure Tiles (a : Allocator) (inUse : List Block) : Prop where
  holds : a.Holds inUse
  covered : ∀ x < a.poolEnd, ∃ b ∈ inUse ++ a.freeBlocks, x ∈ b.bytes
  total : ((inUse ++ a.freeBlocks).map Block.size).sum = a.poolEnd
  counted : a.currentlyAllocated = ((inUse.map Block.size).sum : ℕ)

theorem sum_size_remainder (h : size ≤ block.size) :
    size + ((remainder block size).map Block.size).sum = block.size := by
  unfold remainder
  split_ifs with hrem
  · simpa using Nat.add_sub_cancel' h
  · simpa using le_antisymm h (Nat.sub_eq_zero_iff_le.1 (Nat.eq_zero_of_not_pos hrem))

/-- A byte of a block is in one of the two pieces. -/
theorem mem_bytes_cut {x : ℕ} (size : ℕ) (hx : x ∈ block.bytes) :
    ∃ b ∈ ⟨block.offset, size⟩ :: remainder block size, x ∈ b.bytes := by
  obtain ⟨hlo, hhi⟩ := hx
  by_cases hlt : x < block.offset + size
  · exact ⟨_, mem_cons_self, hlo, hlt⟩
  · have hrem : 0 < block.size - size := by omega
    refine ⟨⟨block.offset + size, block.size - size⟩, by simp [remainder, hrem], ?_, ?_⟩ <;>
      dsimp only <;> omega

theorem Tiles.new (segmentSize : ℕ) : (Allocator.new segmentSize).Tiles [] :=
  ⟨Holds.new segmentSize, fun x hx => absurd hx (Nat.not_lt_zero x), rfl, rfl⟩

theorem Tiles.allocate (h : a.Tiles inUse) (halloc : a.allocate size = some (offset, a')) :
    a'.Tiles (⟨offset, size⟩ :: inUse) := by
  have hholds := (h.holds.allocate halloc).1
  obtain ⟨-, hcount, -, ⟨rfl, hfree, hend, -⟩ | ⟨block, rest, hsize, hperm, rfl, hfree, hend⟩⟩ :=
    allocate_cases halloc
  · refine ⟨hholds, fun x hx => ?_, ?_, ?_⟩
    · rw [hfree]
      by_cases hold : x < a.poolEnd
      · obtain ⟨b, hb, hxb⟩ := h.covered x hold
        exact ⟨b, mem_cons_of_mem _ hb, hxb⟩
      · exact ⟨_, mem_cons_self, not_lt.1 hold, hend ▸ hx⟩
    · rw [hfree, hend, ← h.total]
      simp [Nat.add_comm]
    · rw [hcount, h.counted]
      simp [add_comm]
  · obtain ⟨hbefore, hafter⟩ := perm_of_cut inUse size hperm
    rw [← hfree] at hafter
    refine ⟨hholds, fun x hx => ?_, ?_, ?_⟩
    · obtain ⟨b, hb, hxb⟩ := h.covered x (hend ▸ hx)
      rcases mem_cons.1 (hbefore.mem_iff.1 hb) with rfl | hb
      · obtain ⟨c, hc, hxc⟩ := mem_bytes_cut size hxb
        refine ⟨c, hafter.mem_iff.2 ?_, hxc⟩
        rw [← cons_append]
        exact mem_append_left _ hc
      · exact ⟨b, hafter.mem_iff.2 (mem_cons_of_mem _ (mem_append_right _ hb)), hxb⟩
    · have hold := (hbefore.map Block.size).sum_eq
      rw [h.total, map_cons, sum_cons] at hold
      have hrem := sum_size_remainder hsize
      rw [(hafter.map Block.size).sum_eq, hend, hold, map_cons, sum_cons,
        map_append, sum_append, ← Nat.add_assoc, hrem]
    · rw [hcount, h.counted]
      simp [add_comm]

theorem Tiles.free (h : a.Tiles inUse) (hblock : block ∈ inUse) :
    (a.free block).Tiles (inUse.erase block) := by
  have hperm := perm_cons_erase hblock
  have hblocks : (inUse.erase block ++ (a.free block).freeBlocks).Perm
      (inUse ++ a.freeBlocks) := by
    rw [Allocator.free, ← append_assoc]
    exact (perm_append_singleton _ _).trans (hperm.symm.append_right _)
  refine ⟨h.holds.of_perm hblocks rfl rfl, fun x hx => ?_, ?_, ?_⟩
  · obtain ⟨b, hb, hxb⟩ := h.covered x hx
    exact ⟨b, hblocks.mem_iff.2 hb, hxb⟩
  · exact (hblocks.map Block.size).sum_eq.trans h.total
  · have hsum := (hperm.map Block.size).sum_eq
    rw [map_cons, sum_cons] at hsum
    change a.currentlyAllocated - (block.size : ℤ) = _
    rw [h.counted, hsum]
    push_cast
    ring

/-- The bytes in use fit in the pool. -/
theorem Tiles.allocated_le (h : a.Tiles inUse) :
    a.currentlyAllocated ≤ a.poolEnd := by
  rw [h.counted, ← h.total, map_append, sum_append]
  exact_mod_cast Nat.le_add_right _ _

theorem Tiles.iUnion_bytes (h : a.Tiles inUse) :
    ⋃ b ∈ inUse ++ a.freeBlocks, b.bytes = Set.Ico 0 a.poolEnd := by
  ext x
  simp only [Set.mem_iUnion, exists_prop]
  constructor
  · rintro ⟨b, hb, -, hx⟩
    exact ⟨Nat.zero_le _, hx.trans_le (h.holds.bounded b hb)⟩
  · rintro ⟨-, hx⟩
    exact h.covered x hx

/-! ## Runs -/

/-- Sequences of calls on a new allocator : the object, the blocks that are handed out, and the
object before each call, the latest first. A free returns a block that is handed out. -/
inductive Run (segmentSize : ℕ) : Allocator → List Block → List Allocator → Prop
  | start : Run segmentSize (new segmentSize) [] []
  | allocate {a a' : Allocator} {inUse : List Block} {past : List Allocator} {size offset : ℕ} :
      Run segmentSize a inUse past → 0 < size → a.allocateRun size = (some offset, a') →
        Run segmentSize a' (⟨offset, size⟩ :: inUse) (a :: past)
  | refuse {a a' : Allocator} {inUse : List Block} {past : List Allocator} {size : ℕ} :
      Run segmentSize a inUse past → 0 < size → a.allocateRun size = (none, a') →
        Run segmentSize a' inUse (a :: past)
  | free {a : Allocator} {inUse : List Block} {past : List Allocator} {block : Block} :
      Run segmentSize a inUse past → block ∈ inUse →
        Run segmentSize (a.free block) (inUse.erase block) (a :: past)

/-- The peak is the largest count so far. -/
def Peaked (a : Allocator) (past : List Allocator) : Prop :=
  IsGreatest {c | ∃ b ∈ a :: past, c = b.currentlyAllocated} a.peakUsage

/-- A call that raises the peak to the new count, or leaves it where it is. -/
theorem Peaked.step (h : Peaked a past)
    (hpeak : a'.peakUsage = max a'.currentlyAllocated a.peakUsage) : Peaked a' (a :: past) := by
  rw [Peaked, hpeak]
  constructor
  · rcases max_choice a'.currentlyAllocated a.peakUsage with hm | hm
    · exact ⟨a', mem_cons_self, hm⟩
    · obtain ⟨b, hb, hc⟩ := h.1
      exact ⟨b, mem_cons_of_mem _ hb, hm.trans hc⟩
  · rintro c ⟨b, hb, rfl⟩
    rcases mem_cons.1 hb with rfl | hb
    · exact le_max_left _ _
    · exact (h.2 ⟨b, hb, rfl⟩).trans (le_max_right _ _)

theorem Peaked.le (h : Peaked a past) :
    a.currentlyAllocated ≤ a.peakUsage :=
  h.2 ⟨a, mem_cons_self, rfl⟩

/-- What holds at every point of a run. -/
structure Sound (segmentSize : ℕ) (a : Allocator) (inUse : List Block) (past : List Allocator) :
    Prop where
  segment : a.segmentSize = segmentSize
  tiles : a.Tiles inUse
  grows : ∀ b ∈ past, b.poolEnd ≤ a.poolEnd
  peaked : Peaked a past
  peak_le : a.peakUsage ≤ a.poolEnd

theorem Run.sound {segmentSize : ℕ} (h : Run segmentSize a inUse past) :
    Sound segmentSize a inUse past := by
  induction h with
  | start =>
    refine ⟨rfl, Tiles.new segmentSize, by simp, ⟨⟨_, mem_cons_self, rfl⟩, ?_⟩, le_rfl⟩
    rintro c ⟨b, hb, rfl⟩
    rw [mem_singleton.1 hb]
    exact le_rfl
  | allocate _ _ hrun ih =>
    have halloc := allocateRun_some hrun
    have htiles := ih.tiles.allocate halloc
    obtain ⟨-, hseg, hend⟩ := ih.tiles.holds.allocate halloc
    obtain ⟨-, -, hpeak, -⟩ := allocate_cases halloc
    refine ⟨hseg.trans ih.segment, htiles, fun b hb => ?_, ih.peaked.step hpeak, ?_⟩
    · rcases mem_cons.1 hb with rfl | hb
      · exact hend
      · exact (ih.grows b hb).trans hend
    · rw [hpeak]
      exact max_le htiles.allocated_le (ih.peak_le.trans (by exact_mod_cast hend))
  | refuse _ _ hrun ih =>
    obtain rfl := allocateRun_none hrun
    refine ⟨ih.segment, ih.tiles, fun b hb => ?_, ih.peaked.step (max_eq_right ih.peaked.le).symm,
      ih.peak_le⟩
    rcases mem_cons.1 hb with rfl | hb
    · exact le_rfl
    · exact ih.grows b hb
  | @free a inUse past block _ hblock ih =>
    have hle : a.currentlyAllocated - block.size ≤ a.peakUsage :=
      (sub_le_self _ (Int.natCast_nonneg _)).trans ih.peaked.le
    refine ⟨ih.segment, ih.tiles.free hblock, fun b hb => ?_,
      ih.peaked.step (max_eq_right hle).symm, ih.peak_le⟩
    rcases mem_cons.1 hb with rfl | hb
    · exact le_rfl
    · exact ih.grows b hb

/-- At every point of a run the blocks handed out and the free ones tile the pool, which has
only grown and stays within the segment, the counters are the bytes handed out and the most of
them there were, and a refused allocation changes nothing. -/
theorem run_tiles {segmentSize : ℕ} {a : Allocator} {inUse : List Block} {past : List Allocator}
    (h : Run segmentSize a inUse past) :
    ((inUse ++ a.freeBlocks).Pairwise fun b c => Disjoint b.bytes c.bytes) ∧
      ⋃ b ∈ inUse ++ a.freeBlocks, b.bytes = Set.Ico 0 a.poolEnd ∧
      (∀ b ∈ past, b.poolEnd ≤ a.poolEnd) ∧ a.poolEnd ≤ segmentSize ∧
      a.currentlyAllocated = ((inUse.map Block.size).sum : ℕ) ∧ 0 ≤ a.currentlyAllocated ∧
      IsGreatest {c | ∃ b ∈ a :: past, c = b.currentlyAllocated} a.peakUsage ∧
      a.peakUsage ≤ a.poolEnd ∧
      ∀ size, (a.allocateRun size).1 = none → (a.allocateRun size).2 = a := by
  have hs := h.sound
  refine ⟨hs.tiles.holds.apart.imp fun h => h.disjoint, hs.tiles.iUnion_bytes, hs.grows, ?_,
    hs.tiles.counted, ?_, hs.peaked, hs.peak_le, fun size hnone => ?_⟩
  · rw [← hs.segment]
    exact hs.tiles.holds.fits
  · rw [hs.tiles.counted]
    exact Int.natCast_nonneg _
  · exact allocateRun_none (Prod.ext hnone rfl)

/-- Two blocks of which the first is returned and cut, and a refusal. -/
theorem run_tiles_cut :
    (([⟨0, 32⟩, ⟨64, 16⟩, ⟨32, 32⟩] : List Block).Pairwise fun b c => Disjoint b.bytes c.bytes) ∧
      ⋃ b ∈ ([⟨0, 32⟩, ⟨64, 16⟩, ⟨32, 32⟩] : List Block), b.bytes = Set.Ico 0 80 := by
  have h₁ : Run 100 ⟨[], 64, 100, 64, 64⟩ [⟨0, 64⟩] _ := .allocate .start (by decide) rfl
  have h₂ : Run 100 ⟨[], 80, 100, 80, 80⟩ [⟨64, 16⟩, ⟨0, 64⟩] _ := .allocate h₁ (by decide) rfl
  have h₃ := h₂.free (show ⟨0, 64⟩ ∈ _ by decide)
  have h₄ : Run 100 ⟨[⟨32, 32⟩], 80, 100, 48, 80⟩ [⟨0, 32⟩, ⟨64, 16⟩] _ :=
    .allocate h₃ (by decide) rfl
  have h := h₄.refuse (show 0 < 50 by decide) rfl
  have := run_tiles h
  exact ⟨this.1, this.2.1⟩

end Allocator

end Pool

end TorchSpyre
