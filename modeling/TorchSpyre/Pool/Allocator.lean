import Mathlib

/-!
# The free-list allocator of the HBM pool

`hbm_pool_planning.py`. A block is a byte offset and a size. `allocate` takes the first free
block that is large enough and puts what it does not need back at the end of the free list,
or it extends the pool. Blocks are never merged. `free` appends.

The blocks in use and the free blocks never overlap and lie below the end of the pool, which
stays within the segment (`Allocator.Holds`). That is kept by both operations, whichever
block in use is freed.
-/

open List

namespace TorchSpyre

namespace Pool

/-- A byte offset and a size. -/
structure Block where
  offset : ℕ
  size : ℕ
deriving DecidableEq

/-- The blocks have no byte in common. -/
def Block.Apart (x y : Block) : Prop :=
  x.offset + x.size ≤ y.offset ∨ y.offset + y.size ≤ x.offset

variable {x y : Block}

theorem Block.Apart.symm (h : x.Apart y) : y.Apart x :=
  Or.symm h

theorem Block.Apart.disjoint (h : x.Apart y) :
    Disjoint (Set.Ico x.offset (x.offset + x.size)) (Set.Ico y.offset (y.offset + y.size)) := by
  rw [Set.Ico_disjoint_Ico]
  unfold Block.Apart at h
  omega

/-- The free blocks of the pool, and its end. -/
structure Allocator where
  freeBlocks : List Block
  poolEnd : ℕ
  segmentSize : ℕ
  currentlyAllocated : ℤ
  peakUsage : ℤ
deriving DecidableEq

namespace Allocator

/-- An empty pool. -/
def new (segmentSize : ℕ) : Allocator :=
  ⟨[], 0, segmentSize, 0, 0⟩

/-- What is left of a block after its first `size` bytes. -/
def remainder (block : Block) (size : ℕ) : List Block :=
  if 0 < block.size - size then [⟨block.offset + size, block.size - size⟩] else []

/-- Count `size` bytes as handed out. -/
def charge (a : Allocator) (size : ℕ) : Allocator :=
  { a with
    currentlyAllocated := a.currentlyAllocated + size
    peakUsage := max (a.currentlyAllocated + size) a.peakUsage }

/-- The block holds `size` bytes. -/
def large (size : ℕ) (block : Block) : Bool :=
  decide (size ≤ block.size)

/-- An offset for `size` bytes, or `none` if the pool would outgrow the segment. -/
def allocate (a : Allocator) (size : ℕ) : Option (ℕ × Allocator) :=
  match a.freeBlocks.find? (large size) with
  | some block =>
    if a.segmentSize < a.poolEnd then none
    else some (block.offset,
      { a with freeBlocks :=
          a.freeBlocks.eraseP (large size) ++ remainder block size }.charge size)
  | none =>
    if a.segmentSize < a.poolEnd + size then none
    else some (a.poolEnd, { a with poolEnd := a.poolEnd + size }.charge size)

/-- Return a block to the free list. -/
def free (a : Allocator) (block : Block) : Allocator :=
  { a with
    freeBlocks := a.freeBlocks ++ [block]
    currentlyAllocated := a.currentlyAllocated - block.size }

/-! ## Blocks in use -/

/-- With the blocks `inUse` handed out : no two blocks overlap, and all lie in the pool. -/
structure Holds (a : Allocator) (inUse : List Block) : Prop where
  apart : (inUse ++ a.freeBlocks).Pairwise Block.Apart
  bounded : ∀ b ∈ inUse ++ a.freeBlocks, b.offset + b.size ≤ a.poolEnd
  fits : a.poolEnd ≤ a.segmentSize

/-- Taking out the first block that matches. -/
theorem perm_cons_eraseP {α : Type} {p : α → Bool} {l : List α} {x : α} (h : l.find? p = some x) :
    l.Perm (x :: l.eraseP p) := by
  obtain ⟨hx, pre, post, rfl, hpre⟩ := find?_eq_some_iff_append.1 h
  rw [eraseP_append_right _ fun y hy => by simpa using hpre y hy, eraseP_cons_of_pos hx]
  exact perm_middle

theorem Holds.new (segmentSize : ℕ) : (Allocator.new segmentSize).Holds [] :=
  ⟨List.Pairwise.nil, by simp [Allocator.new], Nat.zero_le _⟩

variable {a a' : Allocator} {block : Block} {inUse rest : List Block} {offset size : ℕ}

/-- The order of the blocks does not matter. -/
theorem Holds.of_perm {inUse' : List Block} (h : a.Holds inUse)
    (hperm : (inUse' ++ a'.freeBlocks).Perm (inUse ++ a.freeBlocks)) (hend : a'.poolEnd = a.poolEnd)
    (hseg : a'.segmentSize = a.segmentSize) : a'.Holds inUse' where
  apart := (hperm.pairwise_iff fun h => Block.Apart.symm h).2 h.apart
  bounded b hb := by
    rw [hend]
    exact h.bounded b (hperm.mem_iff.1 hb)
  fits := by
    rw [hend, hseg]
    exact h.fits

/-- Freeing moves a block from the ones in use to the free ones. -/
theorem Holds.free (h : a.Holds (block :: inUse)) : (a.free block).Holds inUse := by
  refine h.of_perm ?_ rfl rfl
  rw [Allocator.free, ← append_assoc]
  exact perm_append_singleton _ _

/-- The rest of a block. -/
theorem mem_remainder {b : Block} (h : b ∈ remainder block size) :
    b.offset = block.offset + size ∧ b.size = block.size - size := by
  unfold remainder at h
  split_ifs at h
  · rw [mem_singleton.1 h]
    exact ⟨rfl, rfl⟩
  · simp at h

/-- Cutting a block in two. -/
theorem pairwise_split (hsize : size ≤ block.size) (h : (block :: rest).Pairwise Block.Apart) :
    (⟨block.offset, size⟩ :: (remainder block size ++ rest)).Pairwise Block.Apart := by
  obtain ⟨hblock, hrest⟩ := pairwise_cons.1 h
  refine pairwise_cons.2 ⟨fun b hb => ?_, pairwise_append.2 ⟨?_, hrest, ?_⟩⟩
  · rcases mem_append.1 hb with hb | hb
    · exact .inl (mem_remainder hb).1.ge
    · have := hblock b hb
      unfold Block.Apart at this ⊢
      dsimp only
      omega
  · unfold remainder
    split_ifs
    · exact pairwise_singleton _ _
    · exact List.Pairwise.nil
  · intro b hb c hc
    have h₁ := mem_remainder hb
    have h₂ := hblock c hc
    unfold Block.Apart at h₂ ⊢
    omega

/-- What an allocation does to the counters, and that it extends the pool or cuts a free block. -/
theorem allocate_cases (h : a.allocate size = some (offset, a')) :
    a'.segmentSize = a.segmentSize ∧ a'.currentlyAllocated = a.currentlyAllocated + size ∧
      a'.peakUsage = max a'.currentlyAllocated a.peakUsage ∧
      ((offset = a.poolEnd ∧ a'.freeBlocks = a.freeBlocks ∧ a'.poolEnd = a.poolEnd + size ∧
          a'.poolEnd ≤ a.segmentSize) ∨
        ∃ block rest, size ≤ block.size ∧ a.freeBlocks.Perm (block :: rest) ∧
          offset = block.offset ∧ a'.freeBlocks = rest ++ remainder block size ∧
          a'.poolEnd = a.poolEnd) := by
  unfold Allocator.allocate at h
  cases hfind : a.freeBlocks.find? (large size) with
  | none =>
    simp only [hfind] at h
    split_ifs at h with hfit
    obtain ⟨rfl, rfl⟩ := Prod.mk.inj (Option.some.inj h)
    exact ⟨rfl, rfl, rfl, .inl ⟨rfl, rfl, rfl, not_lt.1 hfit⟩⟩
  | some block =>
    simp only [hfind] at h
    split_ifs at h
    obtain ⟨rfl, rfl⟩ := Prod.mk.inj (Option.some.inj h)
    have hsize : size ≤ block.size := by simpa [large] using find?_some hfind
    exact ⟨rfl, rfl, rfl, .inr ⟨block, _, hsize, perm_cons_eraseP hfind, rfl, rfl, rfl⟩⟩

/-- The blocks around a block that is cut, before and after. -/
theorem perm_of_cut (inUse : List Block) {free : List Block} (size : ℕ)
    (h : free.Perm (block :: rest)) :
    (inUse ++ free).Perm (block :: (inUse ++ rest)) ∧
      (⟨block.offset, size⟩ :: inUse ++ (rest ++ remainder block size)).Perm
        (⟨block.offset, size⟩ :: (remainder block size ++ (inUse ++ rest))) := by
  refine ⟨(h.append_left inUse).trans perm_middle, ?_⟩
  rw [cons_append, ← append_assoc]
  exact perm_append_comm.cons _

/-- Allocating adds a block to the ones in use. -/
theorem Holds.allocate (h : a.Holds inUse) (halloc : a.allocate size = some (offset, a')) :
    a'.Holds (⟨offset, size⟩ :: inUse) ∧ a'.segmentSize = a.segmentSize ∧
      a.poolEnd ≤ a'.poolEnd := by
  obtain ⟨hseg, -, -, ⟨rfl, hfree, hend, hfit⟩ | ⟨block, rest, hsize, hperm, rfl, hfree, hend⟩⟩ :=
    allocate_cases halloc
  · refine ⟨⟨?_, fun b hb => ?_, hseg.symm ▸ hfit⟩, hseg, hend ▸ Nat.le_add_right _ _⟩
    · rw [hfree]
      exact pairwise_cons.2 ⟨fun b hb => .inr (h.bounded b hb), h.apart⟩
    · rw [hend]
      rw [hfree] at hb
      rcases mem_cons.1 hb with rfl | hb
      · exact le_rfl
      · exact (h.bounded b hb).trans (Nat.le_add_right _ _)
  · obtain ⟨hbefore, hafter⟩ := perm_of_cut inUse size hperm
    have hsplit := pairwise_split hsize
      ((hbefore.pairwise_iff fun h => Block.Apart.symm h).1 h.apart)
    have hbound := h.bounded block (hbefore.mem_iff.2 mem_cons_self)
    rw [← hfree] at hafter
    refine ⟨⟨(hafter.pairwise_iff fun h => Block.Apart.symm h).2 hsplit, fun b hb => ?_, ?_⟩,
      hseg, hend.ge⟩
    · rw [hend]
      rcases mem_cons.1 (hafter.mem_iff.1 hb) with rfl | hb
      · exact (Nat.add_le_add_left hsize _).trans hbound
      · rcases mem_append.1 hb with hb | hb
        · have := mem_remainder hb
          omega
        · exact h.bounded b (hbefore.mem_iff.2 (mem_cons_of_mem _ hb))
    · rw [hend, hseg]
      exact h.fits

end Allocator

end Pool

end TorchSpyre
