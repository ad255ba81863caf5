import Mathlib
import TorchSpyre.Loops
import TorchSpyre.Pool.Planning

/-!
# Pool offsets of live storages do not overlap

Groups come in the order of their starts. A block is freed only before a group that starts
after the block's range has ended, so while a later group that meets the range is placed, the
block is in use and the new block lies elsewhere (`Safe.place`).

A group that does not fit leaves the pool as it is after the blocks that ended are freed. The
next group would have freed these blocks as well, though in another order
(`SamePool.of_unfit`), and the order of the free list decides which block it gets.
-/

open List Function

namespace TorchSpyre

namespace Pool

open Loops

/-! ## Alias groups -/

section Groups

variable {nodes : List Node} {candidates : List String} {allocId : String → Option ℕ}

/-- What identifies the storage of a name : its allocation object, or the name itself. -/
def storage (allocId : String → Option ℕ) (name : String) : String ⊕ ℕ :=
  match allocId name with
  | none => .inl name
  | some id => .inr id

variable {id : ℕ}

theorem storage_eq_inr {name : String} :
    storage allocId name = .inr id ↔ allocId name = some id := by
  unfold storage
  cases allocId name <;> simp

theorem isSome_groupRange {item : String × LiveRange} (hitem : item ∈ ownRanges nodes candidates)
    (hid : allocId item.1 = some id) :
    (groupRange nodes candidates allocId id).isSome = true := by
  refine foldl_of_mem (P := fun groups : ℕ → Option LiveRange => (groups id).isSome = true) hitem
    (fun groups => ?_)
    (fun y _ groups h => ?_) _
  · simp [mergeRange, hid]
  · unfold mergeRange
    cases allocId y.1 with
    | none => exact h
    | some id' =>
      by_cases hid' : id = id'
      · subst hid'
        simp
      · simpa [update_of_ne hid'] using h

/-- Names of one storage have one range. -/
theorem range_unique {n m : String} {r s : LiveRange}
    (hn : (n, r) ∈ computeLiveRanges nodes candidates allocId)
    (hm : (m, s) ∈ computeLiveRanges nodes candidates allocId) (hidn : allocId n = some id)
    (hidm : allocId m = some id) : r = s := by
  obtain ⟨x, hx, hxe⟩ := mem_map.1 hn
  obtain ⟨y, hy, hye⟩ := mem_map.1 hm
  obtain ⟨rfl, rfl⟩ := Prod.mk.inj hxe
  obtain ⟨rfl, rfl⟩ := Prod.mk.inj hye
  obtain ⟨r, hr⟩ := Option.isSome_iff_exists.1 (isSome_groupRange hx hidn)
  simp [hidn, hidm, hr]

/-- The groups are the storages of the names of `items`, in the order of their first names. -/
structure AliasGroups (allocId : String → Option ℕ) (items : List (String × LiveRange))
    (groups : List Group) : Prop where
  sublist : (groups.map fun g => (g.rep, g.range)).Sublist items
  members : ∀ g ∈ groups, ∀ n ∈ g.names,
    storage allocId n = storage allocId g.rep ∧ (n, g.range) ∈ items
  cover : ∀ item ∈ items, ∃ g ∈ groups, item.1 ∈ g.names
  distinct : (groups.map fun g => storage allocId g.rep).Nodup

/-- The representatives of the groups made so far. -/
def RepsOk (allocId : String → Option ℕ) (s : Grouping) : Prop :=
  ∀ id rep, s.repOf id = some rep ↔ ∃ g ∈ s.groups, g.rep = rep ∧ allocId rep = some id

@[simp] theorem Group.join_rep (rep name : String) (g : Group) : (g.join rep name).rep = g.rep := by
  unfold Group.join
  split_ifs <;> rfl

@[simp] theorem Group.join_range (rep name : String) (g : Group) :
    (g.join rep name).range = g.range := by
  unfold Group.join
  split_ifs <;> rfl

theorem Group.mem_join {rep name n : String} {g : Group} :
    n ∈ (g.join rep name).names ↔ n ∈ g.names ∨ g.rep = rep ∧ n = name := by
  unfold Group.join
  split_ifs with h <;> simp [h]

section AddName

variable {done : List (String × LiveRange)} {s : Grouping} {item : String × LiveRange}

/-- A name joins the group of its storage. -/
theorem AliasGroups.join (h : AliasGroups allocId done s.groups) (hreps : RepsOk allocId s)
    (hrange : ∀ x ∈ done, ∀ id, allocId x.1 = some id → allocId item.1 = some id → x.2 = item.2)
    {id : ℕ} (hid : allocId item.1 = some id) {rep : String} (hrep : s.repOf id = some rep) :
    AliasGroups allocId (done ++ [item]) (s.groups.map (Group.join rep item.1)) := by
  obtain ⟨g₀, hg₀, hg₀rep, hidRep⟩ := (hreps id rep).1 hrep
  refine ⟨?_, fun g' hg' n hn => ?_, fun x hx => ?_, ?_⟩
  · rw [map_map]
    simpa [comp_def] using h.sublist.trans (sublist_append_left _ _)
  · obtain ⟨g, hg, rfl⟩ := mem_map.1 hg'
    rw [Group.join_rep, Group.join_range]
    rcases Group.mem_join.1 hn with hn | ⟨hgrep, rfl⟩
    · exact ⟨(h.members g hg n hn).1, mem_append_left _ (h.members g hg n hn).2⟩
    · have hmem : (g.rep, g.range) ∈ done := h.sublist.subset (mem_map_of_mem hg)
      have hgid : allocId g.rep = some id := by rw [hgrep, hidRep]
      refine ⟨(storage_eq_inr.2 hid).trans (storage_eq_inr.2 hgid).symm, ?_⟩
      rw [show g.range = item.2 from hrange _ hmem id hgid hid]
      exact mem_append_right _ mem_cons_self
  · rcases mem_append.1 hx with hx | hx
    · obtain ⟨g, hg, hn⟩ := h.cover x hx
      exact ⟨_, mem_map_of_mem hg, Group.mem_join.2 (.inl hn)⟩
    · rw [mem_singleton.1 hx]
      exact ⟨_, mem_map_of_mem hg₀, Group.mem_join.2 (.inr ⟨hg₀rep, rfl⟩)⟩
  · rw [map_map]
    simpa [comp_def] using h.distinct

/-- A name of a new storage starts a group. -/
theorem AliasGroups.start (h : AliasGroups allocId done s.groups)
    (hnew : ∀ g ∈ s.groups, storage allocId g.rep ≠ storage allocId item.1) :
    AliasGroups allocId (done ++ [item]) (s.groups ++ [⟨item.1, item.2, [item.1]⟩]) := by
  refine ⟨?_, fun g hg n hn => ?_, fun x hx => ?_, ?_⟩
  · rw [map_append]
    exact h.sublist.append (List.Sublist.refl _)
  · rcases mem_append.1 hg with hg | hg
    · exact ⟨(h.members g hg n hn).1, mem_append_left _ (h.members g hg n hn).2⟩
    · rw [mem_singleton.1 hg] at hn ⊢
      rw [mem_singleton.1 hn]
      exact ⟨rfl, mem_append_right _ mem_cons_self⟩
  · rcases mem_append.1 hx with hx | hx
    · obtain ⟨g, hg, hn⟩ := h.cover x hx
      exact ⟨g, mem_append_left _ hg, hn⟩
    · rw [mem_singleton.1 hx]
      exact ⟨_, mem_append_right _ mem_cons_self, mem_cons_self⟩
  · rw [map_append, nodup_append]
    refine ⟨h.distinct, nodup_singleton _, ?_⟩
    intro a ha b hb
    obtain ⟨g, hg, rfl⟩ := mem_map.1 ha
    rw [mem_singleton.1 hb]
    exact hnew g hg

/-- One step of the grouping. -/
theorem AliasGroups.addName (hname : item.1 ∉ done.map Prod.fst)
    (hrange : ∀ x ∈ done, ∀ id, allocId x.1 = some id → allocId item.1 = some id → x.2 = item.2)
    (h : AliasGroups allocId done s.groups) (hreps : RepsOk allocId s) :
    AliasGroups allocId (done ++ [item]) (Pool.addName allocId s item).groups ∧
      RepsOk allocId (Pool.addName allocId s item) := by
  unfold Pool.addName
  cases hrep : (allocId item.1).bind s.repOf with
  | some rep =>
    obtain ⟨id, hid, hrepId⟩ := Option.bind_eq_some_iff.1 hrep
    refine ⟨h.join hreps hrange hid hrepId, fun id' rep' => (hreps id' rep').trans ?_⟩
    simp
  | none =>
    have hnone : ∀ id, allocId item.1 = some id → s.repOf id = none := by
      intro id hid
      rwa [hid, Option.bind_some] at hrep
    have hnew : ∀ g ∈ s.groups, storage allocId g.rep ≠ storage allocId item.1 := by
      intro g hg heq
      cases hid : allocId item.1 with
      | some id =>
        have := (hreps id g.rep).2 ⟨g, hg, rfl, storage_eq_inr.1 (heq.trans (storage_eq_inr.2 hid))⟩
        rw [hnone id hid] at this
        cases this
      | none =>
        have hrepEq : g.rep = item.1 := by
          unfold storage at heq
          rw [hid] at heq
          cases hg' : allocId g.rep <;> simp_all
        refine hname ?_
        rw [← hrepEq]
        exact mem_map_of_mem (f := Prod.fst) (h.sublist.subset (mem_map_of_mem hg))
    refine ⟨h.start hnew, fun id rep => ?_⟩
    cases hid : allocId item.1 with
    | none =>
      refine (hreps id rep).trans ?_
      simp only [mem_append, mem_singleton]
      constructor
      · rintro ⟨g, hg, hrest⟩
        exact ⟨g, .inl hg, hrest⟩
      · rintro ⟨g, hg | rfl, rfl, hrest⟩
        · exact ⟨g, hg, rfl, hrest⟩
        · simp [hid] at hrest
    | some id' =>
      simp only [mem_append, mem_singleton]
      by_cases hidEq : id = id'
      · subst hidEq
        rw [update_self]
        constructor
        · rintro ⟨⟩
          exact ⟨_, .inr rfl, rfl, hid⟩
        · rintro ⟨g, hg | rfl, rfl, hrest⟩
          · have := (hreps id g.rep).2 ⟨g, hg, rfl, hrest⟩
            rw [hnone id hid] at this
            cases this
          · rfl
      · rw [update_of_ne hidEq, hreps id rep]
        constructor
        · rintro ⟨g, hg, hrest⟩
          exact ⟨g, .inl hg, hrest⟩
        · rintro ⟨g, hg | rfl, rfl, hrest⟩
          · exact ⟨g, hg, rfl, hrest⟩
          · exact absurd (Option.some.inj (hrest.symm.trans hid)) hidEq

end AddName

theorem map_fst_ownRanges :
    ((ownRanges nodes candidates).map Prod.fst).Sublist candidates := by
  have key : ∀ l : List String, ((l.filterMap fun name =>
      (lastStep nodes candidates Node.writes name).map fun s => (name, (⟨s,
        (lastStep nodes candidates Node.reads name).getD (nodes.length + 1)⟩ : LiveRange))).map
          Prod.fst).Sublist l := by
    intro l
    induction l with
    | nil => exact List.Sublist.slnil
    | cons n l ih =>
      rw [filterMap_cons]
      cases lastStep nodes candidates Node.writes n with
      | none => exact ih.cons n
      | some s => exact ih.cons_cons n
  exact key candidates

/-- The groups of a bundle are its storages. -/
theorem aliasGroups_allocGroups (hnd : candidates.Nodup) :
    AliasGroups allocId ((computeLiveRanges nodes candidates allocId).insertionSort sortLe)
      (allocGroups nodes candidates allocId) := by
  obtain ⟨items, hitems⟩ : ∃ items, items =
    (computeLiveRanges nodes candidates allocId).insertionSort sortLe := ⟨_, rfl⟩
  have hperm : items.Perm (computeLiveRanges nodes candidates allocId) := by
    rw [hitems]
    exact perm_insertionSort _ _
  have hnames : (items.map Prod.fst).Nodup := by
    rw [(hperm.map Prod.fst).nodup_iff, computeLiveRanges, map_map]
    exact (map_fst_ownRanges.nodup hnd :)
  rw [allocGroups, ← hitems]
  refine (foldl_inv (l := items) (I := fun done s => AliasGroups allocId done s.groups ∧
    RepsOk allocId s) (fun pre item post s hsplit h => ?_) ⟨?_, ?_⟩).1
  · refine AliasGroups.addName ?_ ?_ h.1 h.2
    · rw [hsplit, map_append, map_cons, nodup_append] at hnames
      intro hmem
      exact hnames.2.2 _ hmem _ mem_cons_self rfl
    · intro x hx id hidx hid
      exact range_unique (hperm.mem_iff.1 (by rw [hsplit]; exact mem_append_left _ hx))
        (hperm.mem_iff.1 (by rw [hsplit]; simp)) hidx hid
  · exact ⟨List.Sublist.slnil, by simp, by simp, nodup_nil⟩
  · simp [RepsOk]

instance : Std.Total sortLe := ⟨by
  intro p q
  unfold sortLe
  have := le_total p.1 q.1
  grind⟩

instance : IsTrans (String × LiveRange) sortLe := ⟨by
  intro p q r hpq hqr
  unfold sortLe at *
  have : p.1 ≤ q.1 → q.1 ≤ r.1 → p.1 ≤ r.1 := le_trans
  grind⟩

/-- Groups come in the order of their starts. -/
theorem pairwise_allocGroups (hnd : candidates.Nodup) :
    (allocGroups nodes candidates allocId).Pairwise fun g h => g.range.start ≤ h.range.start := by
  have hsorted := List.pairwise_insertionSort sortLe (computeLiveRanges nodes candidates allocId)
  have := hsorted.sublist (aliasGroups_allocGroups hnd).sublist
  rw [pairwise_map] at this
  refine this.imp fun {g h} hgh => ?_
  unfold sortLe at hgh
  dsimp only at hgh
  omega

end Groups

/-! ## Placing a group -/

section Free

variable (pending : List PendingFree) (a : Allocator)

theorem foldl_free_poolEnd :
    (pending.foldl (fun a p => a.free p.block) a).poolEnd = a.poolEnd := by
  induction pending generalizing a with
  | nil => rfl
  | cons p pending ih => exact ih (a.free p.block)

theorem foldl_free_segmentSize :
    (pending.foldl (fun a p => a.free p.block) a).segmentSize = a.segmentSize := by
  induction pending generalizing a with
  | nil => rfl
  | cons p pending ih => exact ih (a.free p.block)

theorem holds_foldl_free {inUse : List Block}
    (h : a.Holds (pending.map PendingFree.block ++ inUse)) :
    (pending.foldl (fun a p => a.free p.block) a).Holds inUse := by
  induction pending generalizing a with
  | nil => exact h
  | cons p pending ih => exact ih (a.free p.block) h.free

end Free

/-- The two groups, if both are in the pool and live together, have no byte in common. -/
def Placement.Apart (p q : Placement) : Prop :=
  ∀ a b, p.offset = some a → q.offset = some b → p.group.range.Meets q.group.range →
    Disjoint (Set.Ico a (a + p.size)) (Set.Ico b (b + q.size))

/-- The pool after groups that start by `now`. A placed group has ended or holds its block. -/
structure Safe (now : ℕ) (s : PoolState) : Prop where
  holds : s.allocator.Holds (s.pendingFrees.map PendingFree.block)
  segment : s.allocator.segmentSize = maxPoolSizeBytes
  bounded : ∀ p ∈ s.placements, ∀ a, p.offset = some a → a + p.size ≤ s.extent
  kept : ∀ p ∈ s.placements, ∀ a, p.offset = some a →
    p.group.range.stop < now ∨ ⟨p.group.range.stop, ⟨a, p.size⟩⟩ ∈ s.pendingFrees
  apart : s.placements.Pairwise Placement.Apart

variable {g : Group} {s : PoolState} {deviceSize : String → ℕ} {now start : ℕ}

theorem Safe.mono {now' : ℕ} (h : Safe now s) (hle : now ≤ now') :
    Safe now' s :=
  { h with kept := fun p hp a ha => (h.kept p hp a ha).imp_left fun hlt => hlt.trans_le hle }

theorem Safe.empty (now : ℕ) : Safe now ⟨Allocator.new maxPoolSizeBytes, [], []⟩ :=
  ⟨Allocator.Holds.new _, rfl, by simp, by simp, List.Pairwise.nil⟩

theorem Safe.freeBefore (h : Safe start s) :
    Safe start (s.freeBefore start) := by
  refine ⟨?_, ?_, fun p hp a ha => ?_, fun p hp a ha => ?_, h.apart⟩
  · refine holds_foldl_free _ _ (h.holds.of_perm ?_ rfl rfl)
    rw [PoolState.freeBefore, ← map_append]
    exact ((filter_append_perm _ s.pendingFrees).map _).append_right _
  · exact (foldl_free_segmentSize _ _).trans h.segment
  · exact (h.bounded p hp a ha).trans_eq (foldl_free_poolEnd _ _).symm
  · refine (h.kept p hp a ha).elim .inl fun hmem => ?_
    by_cases hlt : p.group.range.stop < start
    · exact .inl hlt
    · exact .inr (mem_filter.2 ⟨hmem, by simpa using hlt⟩)

/-- Placing the next group keeps the pool safe. -/
theorem Safe.place (h : Safe g.range.start s) : Safe g.range.start (s.place deviceSize g) := by
  have hfree := h.freeBefore
  obtain ⟨t, ht⟩ : ∃ t, t = s.freeBefore g.range.start := ⟨_, rfl⟩
  obtain ⟨size, hsize⟩ : ∃ size, size = computeSizeBytes deviceSize g.rep := ⟨_, rfl⟩
  unfold PoolState.place
  simp only [← ht, ← hsize] at hfree ⊢
  cases halloc : t.allocator.allocate size with
  | none =>
    refine ⟨hfree.holds, hfree.segment, fun p hp a ha => ?_, fun p hp a ha => ?_, ?_⟩
    · rcases mem_append.1 hp with hp | hp
      · exact hfree.bounded p hp a ha
      · rw [mem_singleton.1 hp] at ha
        cases ha
    · rcases mem_append.1 hp with hp | hp
      · exact hfree.kept p hp a ha
      · rw [mem_singleton.1 hp] at ha
        cases ha
    · refine pairwise_append.2 ⟨hfree.apart, pairwise_singleton _ _, ?_⟩
      intro p _ q hq a b _ hb
      rw [mem_singleton.1 hq] at hb
      cases hb
  | some result =>
    obtain ⟨offset, allocator⟩ := result
    obtain ⟨hholds, hseg, hend⟩ := hfree.holds.allocate halloc
    refine ⟨hholds.of_perm ?_ rfl rfl, hseg.trans hfree.segment, fun p hp a ha => ?_,
      fun p hp a ha => ?_, ?_⟩
    · rw [map_append]
      exact (perm_append_singleton _ _).append_right _
    · rcases mem_append.1 hp with hp | hp
      · exact (hfree.bounded p hp a ha).trans hend
      · rw [mem_singleton.1 hp] at ha ⊢
        obtain rfl := Option.some.inj ha
        exact hholds.bounded ⟨offset, size⟩ (by simp)
    · rcases mem_append.1 hp with hp | hp
      · exact (hfree.kept p hp a ha).imp_right (mem_append_left _)
      · rw [mem_singleton.1 hp] at ha ⊢
        obtain rfl := Option.some.inj ha
        exact .inr (by simp)
    · refine pairwise_append.2 ⟨hfree.apart, pairwise_singleton _ _, ?_⟩
      intro p hp q hq a b ha hb hmeet
      rw [mem_singleton.1 hq] at hb hmeet ⊢
      obtain rfl := Option.some.inj hb
      obtain ⟨step, -, hstop, hstart, -⟩ := hmeet
      -- `p` has not ended, so its block is in use
      have hmem := (hfree.kept p hp a ha).resolve_left (by dsimp only at hstart; omega)
      have hapart : Block.Apart ⟨offset, size⟩ ⟨a, p.size⟩ :=
        (pairwise_cons.1 hholds.apart).1 ⟨a, p.size⟩
          (mem_append_left _ (mem_map_of_mem (f := PendingFree.block) hmem))
      exact hapart.symm.disjoint

/-- Placing groups in the order of their starts. -/
theorem safe_placeGroups {groups : List Group}
    (hsorted : groups.Pairwise fun g h => g.range.start ≤ h.range.start)
    (hnow : ∀ g ∈ groups, g.range.start ≤ now) : Safe now (placeGroups deviceSize groups) := by
  refine foldl_inv (I := fun done s => ∀ now, (∀ g ∈ done, g.range.start ≤ now) → Safe now s)
    (fun pre g post s hsplit h now hnow => ?_) (fun now _ => Safe.empty now) now hnow
  have hpre : ∀ x ∈ pre, x.range.start ≤ g.range.start := by
    rw [hsplit] at hsorted
    exact fun x hx => (pairwise_append.1 hsorted).2.2 x hx g mem_cons_self
  exact (h _ hpre).place.mono (hnow g (by simp))

theorem map_group_placeGroups (deviceSize : String → ℕ) (groups : List Group) :
    (placeGroups deviceSize groups).placements.map Placement.group = groups := by
  refine foldl_inv (I := fun done (s : PoolState) => s.placements.map Placement.group = done)
    (fun pre g post s _ h => ?_) rfl
  unfold PoolState.place
  dsimp only
  split
  · simp [PoolState.freeBefore, h]
  · simp [PoolState.freeBefore, h]

/-! ## Groups that do not fit -/

/-- The pools differ in the order of their free lists only. -/
structure SamePool (s t : PoolState) : Prop where
  poolEnd : s.allocator.poolEnd = t.allocator.poolEnd
  currentlyAllocated : s.allocator.currentlyAllocated = t.allocator.currentlyAllocated
  peakUsage : s.allocator.peakUsage = t.allocator.peakUsage
  pendingFrees : s.pendingFrees = t.pendingFrees
  freeBlocks : s.allocator.freeBlocks.Perm t.allocator.freeBlocks

/-- Freeing in closed form. -/
theorem foldl_free (pending : List PendingFree) (a : Allocator) :
    pending.foldl (fun a p => a.free p.block) a =
      { a with
        freeBlocks := a.freeBlocks ++ pending.map PendingFree.block
        currentlyAllocated :=
          a.currentlyAllocated - (pending.map fun p => (p.block.size : ℤ)).sum } := by
  induction pending generalizing a with
  | nil => simp
  | cons p pending ih =>
    rw [foldl_cons, ih]
    simp [Allocator.free, sub_sub]

/-- Freeing in two steps frees the same blocks. -/
theorem SamePool.freeBefore_freeBefore (s : PoolState) {i j : ℕ} (hij : i ≤ j) :
    SamePool ((s.freeBefore i).freeBefore j) (s.freeBefore j) := by
  have hperm : (s.pendingFrees.filter (fun p => decide (p.stop < i)) ++
      (s.pendingFrees.filter fun p => !decide (p.stop < i)).filter
        fun p => decide (p.stop < j)).Perm
      (s.pendingFrees.filter fun p => decide (p.stop < j)) := by
    refine List.Perm.trans (.of_eq ?_)
      (filter_append_perm (fun p => decide (p.stop < i)) _)
    rw [filter_filter, filter_filter, filter_filter]
    congr 1 <;> refine filter_congr fun p _ => ?_
    · by_cases h : p.stop < i
      · simp [h, h.trans_le hij]
      · simp [h]
    · exact Bool.and_comm _ _
  have hpending : ((s.pendingFrees.filter fun p => !decide (p.stop < i)).filter
      fun p => !decide (p.stop < j)) = s.pendingFrees.filter fun p => !decide (p.stop < j) := by
    rw [filter_filter]
    refine filter_congr fun p _ => ?_
    by_cases h : p.stop < j
    · simp [h]
    · simp [h, show ¬p.stop < i by omega]
  unfold PoolState.freeBefore
  simp only [foldl_free]
  refine ⟨rfl, ?_, rfl, hpending, ?_⟩
  · have := (hperm.map fun p => (p.block.size : ℤ)).sum_eq
    rw [map_append, sum_append] at this
    dsimp only
    omega
  · rw [append_assoc, ← map_append]
    exact (hperm.map _).append_left _

/-- A group that does not fit leaves the next one the pool it would have without it. -/
theorem SamePool.of_unfit
    (hunfit : (s.freeBefore g.range.start).allocator.allocate
      (computeSizeBytes deviceSize g.rep) = none) (hle : g.range.start ≤ start) :
    SamePool ((s.place deviceSize g).freeBefore start) (s.freeBefore start) := by
  have hplace : s.place deviceSize g = { s.freeBefore g.range.start with
      placements := (s.freeBefore g.range.start).placements ++
        [⟨g, computeSizeBytes deviceSize g.rep, none⟩] } := by
    unfold PoolState.place
    simp only [hunfit]
  have hsame := SamePool.freeBefore_freeBefore s hle
  rw [hplace]
  exact ⟨hsame.poolEnd, hsame.currentlyAllocated, hsame.peakUsage, hsame.pendingFrees,
    hsame.freeBlocks⟩

/-! ## The plan of a bundle -/

/-- After the groups `pre`, there is no room in the pool for `g`. -/
def Unfit (deviceSize : String → ℕ) (pre : List Group) (g : Group) : Prop :=
  ((placeGroups deviceSize pre).freeBefore g.range.start).allocator.allocate
    (computeSizeBytes deviceSize g.rep) = none

theorem placeGroups_append (deviceSize : String → ℕ) (pre : List Group) (g : Group) :
    placeGroups deviceSize (pre ++ [g]) = (placeGroups deviceSize pre).place deviceSize g := by
  simp [placeGroups]

/-- A group that does not fit changes nothing in the pool but the order of its free list. -/
theorem placeGroups_of_unfit {pre : List Group} (hunfit : Unfit deviceSize pre g) :
    (placeGroups deviceSize (pre ++ [g])).placements = (placeGroups deviceSize pre).placements ++
        [⟨g, computeSizeBytes deviceSize g.rep, none⟩] ∧
      (placeGroups deviceSize (pre ++ [g])).extent = (placeGroups deviceSize pre).extent := by
  rw [placeGroups_append, PoolState.place]
  simp only [show _ = none from hunfit]
  exact ⟨rfl, foldl_free_poolEnd _ _⟩

/-- The pool plan of a bundle. The groups are the storages of the candidates that have a range.
Two that are in the pool and live together have no byte in common, all lie within the extent,
and the extent within the pool's budget. A group that does not fit has no offset and leaves the
extent as it is, and the groups after it find the pool they would find without it, up to the
order of the free list. -/
theorem planBundle_safe (nodes : List Node) {candidates : List String} (hnd : candidates.Nodup)
    (allocId : String → Option ℕ) (deviceSize : String → ℕ) :
    AliasGroups allocId ((computeLiveRanges nodes candidates allocId).insertionSort sortLe)
        ((planBundle nodes candidates allocId deviceSize).placements.map Placement.group) ∧
      (planBundle nodes candidates allocId deviceSize).placements.Pairwise Placement.Apart ∧
      (∀ p ∈ (planBundle nodes candidates allocId deviceSize).placements, ∀ a,
        p.offset = some a →
          a + p.size ≤ (planBundle nodes candidates allocId deviceSize).extent) ∧
      (planBundle nodes candidates allocId deviceSize).extent ≤ maxPoolSizeBytes ∧
      ∀ pre g post, allocGroups nodes candidates allocId = pre ++ g :: post →
        Unfit deviceSize pre g →
        (placeGroups deviceSize (pre ++ [g])).placements =
            (placeGroups deviceSize pre).placements ++
              [⟨g, computeSizeBytes deviceSize g.rep, none⟩] ∧
          (placeGroups deviceSize (pre ++ [g])).extent = (placeGroups deviceSize pre).extent ∧
          ∀ h ∈ post, SamePool ((placeGroups deviceSize (pre ++ [g])).freeBefore h.range.start)
            ((placeGroups deviceSize pre).freeBefore h.range.start) := by
  have hsorted : (allocGroups nodes candidates allocId).Pairwise
    fun g h => g.range.start ≤ h.range.start := pairwise_allocGroups hnd
  have hsafe : Safe _ (planBundle nodes candidates allocId deviceSize) :=
    safe_placeGroups hsorted fun g hg =>
      single_le_sum (fun _ _ => Nat.zero_le _) g.range.start
        (mem_map_of_mem (f := fun g : Group => g.range.start) hg)
  refine ⟨?_, hsafe.apart, hsafe.bounded, ?_, fun pre g post hsplit hunfit => ?_⟩
  · rw [planBundle, map_group_placeGroups]
    exact aliasGroups_allocGroups hnd
  · rw [← hsafe.segment]
    exact hsafe.holds.fits
  · obtain ⟨hplaced, hextent⟩ := placeGroups_of_unfit hunfit
    refine ⟨hplaced, hextent, fun h hh => ?_⟩
    rw [placeGroups_append]
    refine SamePool.of_unfit hunfit ?_
    rw [hsplit] at hsorted
    exact rel_of_pairwise_cons (pairwise_append.1 hsorted).2.1 hh

/-- A bundle in which `g` is live while `b` is dead and `a` is not. -/
def overflowNodes : List Node :=
  [⟨[], ["a"]⟩, ⟨[], ["b"]⟩, ⟨["b"], []⟩, ⟨[], ["g"]⟩, ⟨["a"], []⟩, ⟨["g"], ["h"]⟩, ⟨["h"], []⟩]

/-- Only `g` outgrows the pool. -/
def overflowSize (name : String) : ℕ :=
  if name = "g" then maxPoolSizeBytes else 128

/-- Every name its own storage. -/
def ownStorage (name : String) : Option ℕ :=
  ["a", "b", "g", "h"].idxOf? name

/-- The group `g` has no offset, and yet `h` has another one than without it. -/
theorem unfit_moves_other :
    (planBundle overflowNodes ["a", "b", "g", "h"] ownStorage overflowSize).offsetOf "g" = none ∧
      (planBundle overflowNodes ["a", "b", "g", "h"] ownStorage overflowSize).offsetOf "h" =
        some 128 ∧
      (planBundle overflowNodes ["a", "b", "h"] ownStorage overflowSize).offsetOf "h" = some 0 := by
  decide +kernel

theorem planBundle_safe_overflow :
    (planBundle overflowNodes ["a", "b", "g", "h"] ownStorage overflowSize).placements.Pairwise
      Placement.Apart :=
  (planBundle_safe overflowNodes (by decide) ownStorage overflowSize).2.1

end Pool

end TorchSpyre
