import Mathlib

/-!
# Pinned host buffers

`SpyrePinnedAllocator` (`csrc/spyre_pinned_allocator.cpp`) takes its buffers from a staging cache
and keeps them in a map ordered by base address. An entry is an owner (`PinnedAllocationState`)
that returns the buffer to the cache when the last reference to it goes. `deallocate` erases the
entry under the lock, but the reference it has taken out is dropped after the lock, and `retain`
gives away further ones.

The threads are a step relation between the locked sections : every section, every reference that
is dropped, and every call into the cache is one step, and they come in any order. A buffer is
acquired, then owned, then dying until the cache has it back. The cache's promise is the premise
of `Step.acquire` : what it hands out is apart from everything it has not got back.

An owner is told apart by its buffer. `empty_cache` and the set of caches it uses, which only
hold buffers that are back, are left out.
-/

open List

namespace TorchSpyre

namespace Pinned

/-- A mapped buffer, which is not empty and does not begin at the null address. -/
structure PinnedBuffer where
  hmva : ℕ
  capacity : ℕ
  hmva_pos : 0 < hmva
  capacity_pos : 0 < capacity
deriving DecidableEq

/-- The addresses of a buffer. -/
def PinnedBuffer.range (b : PinnedBuffer) : Set ℕ :=
  Set.Ico b.hmva (b.hmva + b.capacity)

theorem PinnedBuffer.hmva_mem (b : PinnedBuffer) : b.hmva ∈ b.range :=
  ⟨le_rfl, Nat.lt_add_of_pos_right b.capacity_pos⟩

/-- Where a buffer is that the cache has handed out : in an `allocate` before the lock, with an
owner, or in the destructor of its owner. -/
inductive Stage
  | acquired
  | owned
  | dying
deriving DecidableEq

/-- `owners` are the references outside the map : those in the local variables of `allocate` and
`deallocate`, and those `retain` has returned. -/
structure SpyrePinnedAllocator where
  stage : PinnedBuffer → Option Stage
  allocations : List PinnedBuffer
  owners : List PinnedBuffer
  /-- The cache returned an active allocation. -/
  raised : Bool

/-- What `retain` returns. -/
structure PinnedAllocation where
  owner : PinnedBuffer
  offset : ℕ
  capacity : ℕ
deriving DecidableEq

namespace SpyrePinnedAllocator

variable (s : SpyrePinnedAllocator)

/-- A buffer goes to another stage. -/
def move (b : PinnedBuffer) (next : Option Stage) : SpyrePinnedAllocator :=
  { s with stage := Function.update s.stage b next }

/-- The locked section of `allocate`. The owner of a buffer that is not entered is destroyed. -/
def publish (b : PinnedBuffer) : SpyrePinnedAllocator :=
  if s.allocations.any fun a => a.hmva = b.hmva then
    { s.move b (some .dying) with raised := true }
  else
    { s.move b (some .owned) with
      allocations := s.allocations.orderedInsert (fun a c => a.hmva ≤ c.hmva) b
      owners := b :: s.owners }

/-- `deallocate`, up to the end of its locked section. -/
def deallocate (context : ℕ) : SpyrePinnedAllocator :=
  if context = 0 then s
  else
    match s.allocations.find? fun a => a.hmva = context with
    | none => s
    | some b => { s with allocations := s.allocations.erase b, owners := b :: s.owners }

/-- A reference outside the map goes, and with the last one the owner. -/
def drop (b : PinnedBuffer) : SpyrePinnedAllocator :=
  let s' := { s with owners := s.owners.erase b }
  if b ∈ s'.owners ∨ b ∈ s'.allocations then s' else s'.move b (some .dying)

/-- The entry before the first one above the address, if it reaches that far. -/
def findContaining (address : ℕ) : Option PinnedBuffer :=
  (s.allocations.takeWhile fun a => a.hmva ≤ address).getLast?.filter
    fun b => address - b.hmva < b.capacity

/-- `isPinnedPtr`. -/
def isPinnedPtr (ptr : ℕ) : Bool :=
  (s.findContaining ptr).isSome

/-- `retain`. -/
def retain (ptr : ℕ) : Option PinnedAllocation :=
  (s.findContaining ptr).map fun b =>
    ⟨b, ptr - b.hmva, b.capacity - (ptr - b.hmva)⟩

/-- The reference `retain` returns is kept by the caller. -/
def keep (ptr : ℕ) : SpyrePinnedAllocator :=
  { s with owners := (s.findContaining ptr).toList ++ s.owners }

end SpyrePinnedAllocator

/-- The steps of the threads and of the cache. -/
inductive Event
  | acquire (b : PinnedBuffer)
  | publish (b : PinnedBuffer)
  | deallocate (context : ℕ)
  | retain (ptr : ℕ)
  | drop (b : PinnedBuffer)
  | release (b : PinnedBuffer)

/-- What a step does. -/
inductive Step (s : SpyrePinnedAllocator) : Event → SpyrePinnedAllocator → Prop
  | acquire {b : PinnedBuffer} (h : ∀ a, s.stage a ≠ none → Disjoint a.range b.range) :
      Step s (.acquire b) (s.move b (some .acquired))
  | publish {b : PinnedBuffer} (h : s.stage b = some .acquired) :
      Step s (.publish b) (s.publish b)
  | deallocate (context : ℕ) : Step s (.deallocate context) (s.deallocate context)
  | retain (ptr : ℕ) : Step s (.retain ptr) (s.keep ptr)
  | drop {b : PinnedBuffer} (h : b ∈ s.owners) : Step s (.drop b) (s.drop b)
  | release {b : PinnedBuffer} (h : s.stage b = some .dying) :
      Step s (.release b) (s.move b none)

/-- The states after a sequence of steps. -/
inductive Run : List Event → SpyrePinnedAllocator → Prop
  | nil : Run [] ⟨fun _ => none, [], [], false⟩
  | snoc {events : List Event} {e : Event} {s s' : SpyrePinnedAllocator} (run : Run events s)
      (step : Step s e s') : Run (events ++ [e]) s'

/-! ## The invariant -/

/-- Buffers that are out are apart, every reference is to an owner, and the map is ordered. -/
structure Exclusive (s : SpyrePinnedAllocator) : Prop where
  apart : ∀ a b, a ≠ b → s.stage a ≠ none → s.stage b ≠ none → Disjoint a.range b.range
  mapped : ∀ b ∈ s.allocations, s.stage b = some .owned
  owned : ∀ b ∈ s.owners, s.stage b = some .owned
  ordered : s.allocations.Pairwise fun a c => a.hmva < c.hmva
  quiet : s.raised = false

section Steps

variable {s s' : SpyrePinnedAllocator} {b : PinnedBuffer}

/-- Two buffers of the map that share an address are one. -/
theorem Exclusive.eq_of_mem (h : Exclusive s) {a : PinnedBuffer} {p : ℕ}
    (ha : s.stage a ≠ none) (hb : s.stage b ≠ none) (hpa : p ∈ a.range) (hpb : p ∈ b.range) :
    a = b := by
  by_contra hne
  exact Set.disjoint_left.1 (h.apart a b hne ha hb) hpa hpb

theorem Exclusive.stage_ne_none (h : Exclusive s) (hb : b ∈ s.allocations) : s.stage b ≠ none := by
  simp [h.mapped b hb]

/-- A step that takes only a buffer to another stage. -/
theorem Exclusive.move (h : Exclusive s) {next : Option Stage}
    (hmap : b ∉ s.allocations) (howners : b ∉ s.owners)
    (hout : next ≠ none → ∀ a, a ≠ b → s.stage a ≠ none → Disjoint a.range b.range) :
    Exclusive (s.move b next) := by
  have hstage : ∀ a, a ≠ b → (s.move b next).stage a = s.stage a := fun a ha =>
    Function.update_of_ne ha _ _
  have hself : (s.move b next).stage b = next := Function.update_self ..
  refine ⟨fun a c hne ha hc => ?_, fun a ha => ?_, fun a ha => ?_, h.ordered, h.quiet⟩
  · by_cases hab : a = b
    · subst hab
      rw [hstage c (Ne.symm hne)] at hc
      rw [hself] at ha
      exact (hout ha c (Ne.symm hne) hc).symm
    · rw [hstage a hab] at ha
      by_cases hcb : c = b
      · subst hcb
        rw [hself] at hc
        exact hout hc a hab ha
      · rw [hstage c hcb] at hc
        exact h.apart a c hne ha hc
  · rw [hstage a fun hab => hmap (hab ▸ ha)]
    exact h.mapped a ha
  · rw [hstage a fun hab => howners (hab ▸ ha)]
    exact h.owned a ha

/-- A buffer that is not owned has no reference. -/
theorem Exclusive.not_mem (h : Exclusive s) (hb : s.stage b ≠ some .owned) :
    b ∉ s.allocations ∧ b ∉ s.owners :=
  ⟨fun hmem => hb (h.mapped b hmem), fun hmem => hb (h.owned b hmem)⟩

/-- No entry has the base of a buffer that is not in the map. -/
theorem Exclusive.not_any (h : Exclusive s) (hb : s.stage b = some .acquired) :
    ¬(s.allocations.any fun a => a.hmva = b.hmva) = true := by
  rw [any_eq_true]
  rintro ⟨a, ha, hbase⟩
  have hout : s.stage b ≠ none := by simp [hb]
  have hmem : b.hmva ∈ a.range := by
    rw [← of_decide_eq_true hbase]
    exact a.hmva_mem
  obtain rfl := h.eq_of_mem (h.stage_ne_none ha) hout hmem b.hmva_mem
  rw [h.mapped a ha] at hb
  cases hb

theorem Exclusive.publish (h : Exclusive s) (hb : s.stage b = some .acquired) :
    Exclusive (s.publish b) := by
  have hfresh := h.not_any hb
  obtain ⟨hmap, howners⟩ := h.not_mem (b := b) (by simp [hb])
  have hmoved : Exclusive (s.move b (some .owned)) :=
    h.move hmap howners fun _ a hab ha => h.apart a b hab ha (by simp [hb])
  have hself : (s.move b (some .owned)).stage b = some .owned := Function.update_self ..
  rw [SpyrePinnedAllocator.publish, if_neg hfresh]
  refine ⟨hmoved.apart, fun a ha => ?_, fun a ha => ?_, ?_, h.quiet⟩
  · rcases (mem_orderedInsert _).1 ha with rfl | ha
    · exact hself
    · exact hmoved.mapped a ha
  · rcases mem_cons.1 ha with rfl | ha
    · exact hself
    · exact hmoved.owned a ha
  · have hle : s.allocations.Pairwise fun a c => a.hmva ≤ c.hmva := h.ordered.imp fun hlt => hlt.le
    have hsorted := hle.orderedInsert b
    have hnodup : ((s.allocations.orderedInsert (fun a c => a.hmva ≤ c.hmva) b).map
        (·.hmva)).Nodup := by
      refine (((perm_orderedInsert _ b s.allocations).map _).nodup_iff).2 ?_
      rw [map_cons, nodup_cons]
      refine ⟨fun hmem => ?_, ?_⟩
      · obtain ⟨a, ha, hbase⟩ := mem_map.1 hmem
        exact hfresh (any_eq_true.2 ⟨a, ha, decide_eq_true hbase⟩)
      · exact pairwise_map.2 (h.ordered.imp fun hlt => hlt.ne)
    exact hsorted.imp₂ (fun a c hle hne => lt_of_le_of_ne hle hne) (pairwise_map.1 hnodup)

/-- `deallocate` finds the entry of its pointer. -/
theorem SpyrePinnedAllocator.deallocate_cases (s : SpyrePinnedAllocator) (context : ℕ) :
    s.deallocate context = s ∧ (∀ a ∈ s.allocations, a.hmva ≠ context) ∨
      ∃ b ∈ s.allocations, b.hmva = context ∧ s.deallocate context =
        { s with allocations := s.allocations.erase b, owners := b :: s.owners } := by
  unfold SpyrePinnedAllocator.deallocate
  split_ifs with hnull
  · exact .inl ⟨rfl, fun a _ => hnull ▸ a.hmva_pos.ne'⟩
  cases hfind : s.allocations.find? fun a => a.hmva = context with
  | none => exact .inl ⟨rfl, by simpa using hfind⟩
  | some b =>
    exact .inr ⟨b, mem_of_find?_eq_some hfind, by simpa using find?_some hfind, rfl⟩

theorem Exclusive.step {e : Event} (h : Exclusive s) (hstep : Step s e s') : Exclusive s' := by
  cases hstep with
  | acquire hpromise =>
    rename_i b
    have hidle : s.stage b = none := by
      by_contra hout
      exact Set.disjoint_left.1 (hpromise b hout) b.hmva_mem b.hmva_mem
    obtain ⟨hmap, howners⟩ := h.not_mem (b := b) (by simp [hidle])
    exact h.move hmap howners fun _ a _ ha => hpromise a ha
  | publish hb => exact h.publish hb
  | deallocate context =>
    rcases s.deallocate_cases context with ⟨heq, -⟩ | ⟨b, hb, -, heq⟩ <;> rw [heq]
    · exact h
    · refine ⟨h.apart, fun a ha => h.mapped a (mem_of_mem_erase ha),
        forall_mem_cons.2 ⟨h.mapped b hb, h.owned⟩, h.ordered.sublist erase_sublist,
        h.quiet⟩
  | retain ptr =>
    refine ⟨h.apart, h.mapped, fun a ha => ?_, h.ordered, h.quiet⟩
    rcases mem_append.1 ha with ha | ha
    · obtain ⟨hlast, -⟩ := Option.mem_filter_iff.1 (Option.mem_toList.1 ha)
      exact h.mapped a ((takeWhile_sublist _).subset (mem_of_getLast? hlast))
    · exact h.owned a ha
  | drop hb =>
    rename_i b
    have hdropped : Exclusive { s with owners := s.owners.erase b } :=
      ⟨h.apart, h.mapped, fun a ha => h.owned a (mem_of_mem_erase ha), h.ordered, h.quiet⟩
    unfold SpyrePinnedAllocator.drop
    dsimp only
    split_ifs with hmore
    · exact hdropped
    · rw [not_or] at hmore
      exact hdropped.move hmore.2 hmore.1 fun _ a hab ha =>
        h.apart a b hab ha (by simp [h.owned b hb])
  | release hb =>
    rename_i b
    obtain ⟨hmap, howners⟩ := h.not_mem (b := b) (by simp [hb])
    exact h.move hmap howners fun hne => absurd rfl hne

theorem Run.exclusive {events : List Event} (h : Run events s) : Exclusive s := by
  induction h with
  | nil => exact ⟨by simp, by simp, by simp, .nil, rfl⟩
  | snoc _ hstep ih => exact ih.step hstep

/-! ## The map -/

/-- The buffer was entered by an `allocate`, and not deallocated since. -/
def Allocated (events : List Event) (b : PinnedBuffer) : Prop :=
  ∃ pre post, events = pre ++ .publish b :: post ∧ .deallocate b.hmva ∉ post

theorem allocated_snoc {events : List Event} {e : Event} : Allocated (events ++ [e]) b ↔
    e = .publish b ∨ Allocated events b ∧ e ≠ .deallocate b.hmva := by
  constructor
  · rintro ⟨pre, post, heq, hnot⟩
    rcases eq_nil_or_concat' post with rfl | ⟨post, last, rfl⟩
    · exact .inl (singleton_inj.1 (append_inj' heq rfl).2)
    · rw [← cons_append, ← append_assoc] at heq
      obtain ⟨rfl, hlast⟩ := append_inj' heq rfl
      obtain rfl := singleton_inj.1 hlast
      rw [mem_append, not_or, mem_singleton] at hnot
      exact .inr ⟨⟨pre, post, rfl, hnot.1⟩, Ne.symm hnot.2⟩
  · rintro (rfl | ⟨⟨pre, post, rfl, hnot⟩, hne⟩)
    · exact ⟨events, [], rfl, by simp⟩
    · exact ⟨pre, post ++ [e], by simp, by simp [hnot, Ne.symm hne]⟩

/-- The map holds the buffers that are allocated and not deallocated. -/
theorem Run.mem_allocations_iff {events : List Event} (h : Run events s) :
    b ∈ s.allocations ↔ Allocated events b := by
  induction h with
  | nil => simp [Allocated]
  | @snoc events e s s' hrun hstep ih =>
    have hex := hrun.exclusive
    rw [allocated_snoc, ← ih]
    cases hstep with
    | publish hb =>
      rw [SpyrePinnedAllocator.publish, if_neg (hex.not_any hb)]
      simp [eq_comm]
    | deallocate context =>
      rcases s.deallocate_cases context with ⟨heq, hnone⟩ | ⟨a, ha, rfl, heq⟩ <;> rw [heq]
      · simpa using fun hb heq => hnone b hb heq.symm
      · have hnodup : s.allocations.Nodup := hex.ordered.imp fun hlt heq => hlt.ne (by rw [heq])
        rw [hnodup.mem_erase_iff]
        have hbase : b ∈ s.allocations → (b ≠ a ↔ a.hmva ≠ b.hmva) := fun hb => by
          rw [not_iff_not]
          refine ⟨fun heq => heq ▸ rfl, fun heq => ?_⟩
          exact hex.eq_of_mem (hex.stage_ne_none hb) (hex.stage_ne_none ha) b.hmva_mem
            (heq ▸ a.hmva_mem)
        simp only [reduceCtorEq, false_or, ne_eq, Event.deallocate.injEq]
        rw [and_comm]
        exact and_congr_right fun hb => hbase hb
    | acquire _ => simp [SpyrePinnedAllocator.move]
    | retain _ => simp [SpyrePinnedAllocator.keep]
    | release _ => simp [SpyrePinnedAllocator.move]
    | drop _ =>
      unfold SpyrePinnedAllocator.drop
      dsimp only
      split_ifs <;> simp [SpyrePinnedAllocator.move]

/-- The entry found is the one the address lies in. -/
theorem Exclusive.findContaining_iff (h : Exclusive s) {p : ℕ} :
    s.findContaining p = some b ↔ b ∈ s.allocations ∧ p ∈ b.range := by
  unfold SpyrePinnedAllocator.findContaining
  rw [Option.filter_eq_some_iff, decide_eq_true_eq]
  constructor
  · rintro ⟨hlast, hcap⟩
    have hmem := mem_of_getLast? hlast
    have hle : b.hmva ≤ p := by simpa using mem_takeWhile_imp hmem
    exact ⟨(takeWhile_sublist _).subset hmem, hle, by omega⟩
  · rintro ⟨hb, hle, hlt⟩
    obtain ⟨pre, post, hsplit⟩ := append_of_mem hb
    have hord := h.ordered
    rw [hsplit, pairwise_append, pairwise_cons] at hord
    have hpre : ∀ a ∈ pre, decide (a.hmva ≤ p) = true := fun a ha => by
      have := hord.2.2 a ha b mem_cons_self
      exact decide_eq_true (by omega)
    -- the entries after `b` begin after its end
    have hpost : post.takeWhile (fun a => a.hmva ≤ p) = [] := by
      cases post with
      | nil => rfl
      | cons c post =>
        have hc : c ∈ s.allocations := by simp [hsplit]
        have hafter := hord.2.1.1 c mem_cons_self
        have hfar : ¬c.hmva ≤ p := fun hge => by
          obtain rfl := h.eq_of_mem (h.stage_ne_none hb) (h.stage_ne_none hc)
            (⟨hafter.le, by omega⟩ : c.hmva ∈ b.range) c.hmva_mem
          exact lt_irrefl _ hafter
        simp [hfar]
    refine ⟨?_, by omega⟩
    rw [hsplit, takeWhile_append_of_pos hpre,
      takeWhile_cons_of_pos (a := b) (decide_eq_true hle), hpost, getLast?_concat]

/-! ## The references -/

/-- After `events`, the step `e` hands out a reference to `b` : `allocate` and `deallocate` keep one
until they return, and `retain` returns one. -/
def Gives (events : List Event) (b : PinnedBuffer) : Event → Prop
  | .publish a => a = b
  | .deallocate context => Allocated events b ∧ context = b.hmva
  | .retain ptr => Allocated events b ∧ ptr ∈ b.range
  | _ => False

open Classical in
/-- The references to `b` that were handed out and not dropped since, the last event first. -/
noncomputable def heldRev (b : PinnedBuffer) : List Event → ℕ
  | [] => 0
  | e :: past =>
    if e = .drop b then heldRev b past - 1
    else if Gives past.reverse b e then heldRev b past + 1
    else heldRev b past

/-- The references to `b` that were handed out and not dropped since. -/
noncomputable def held (events : List Event) (b : PinnedBuffer) : ℕ :=
  heldRev b events.reverse

open Classical in
theorem held_snoc {events : List Event} {e : Event} : held (events ++ [e]) b =
    if e = .drop b then held events b - 1
    else if Gives events b e then held events b + 1 else held events b := by
  rw [held, reverse_append, reverse_singleton, singleton_append, heldRev, reverse_reverse, ← held]

/-- The owners outside the map are the references that are held. -/
theorem Run.count_owners {events : List Event} (h : Run events s) :
    s.owners.count b = held events b := by
  induction h with
  | nil => rfl
  | @snoc events e s s' hrun hstep ih =>
    have hex := hrun.exclusive
    rw [held_snoc, ← ih]
    cases hstep with
    | acquire _ => simp [SpyrePinnedAllocator.move, Gives]
    | release _ => simp [SpyrePinnedAllocator.move, Gives]
    | @publish a ha =>
      rw [SpyrePinnedAllocator.publish, if_neg (hex.not_any ha)]
      by_cases hab : a = b
      · simp [Gives, hab]
      · simp [Gives, hab]
    | deallocate context =>
      simp only [reduceCtorEq, if_false, Gives, ← hrun.mem_allocations_iff]
      rcases s.deallocate_cases context with ⟨heq, hnone⟩ | ⟨a, ha, rfl, heq⟩ <;> rw [heq]
      · rw [if_neg fun hb => hnone b hb.1 hb.2.symm]
      · have hbase : b ∈ s.allocations ∧ a.hmva = b.hmva ↔ a = b := by
          refine ⟨fun hb => ?_, fun hab => hab ▸ ⟨ha, rfl⟩⟩
          exact hex.eq_of_mem (hex.stage_ne_none ha) (hex.stage_ne_none hb.1) a.hmva_mem
            (hb.2 ▸ b.hmva_mem)
        simp only [hbase]
        by_cases hab : a = b
        · simp [hab]
        · simp [hab]
    | retain ptr =>
      simp only [reduceCtorEq, if_false, Gives, ← hrun.mem_allocations_iff,
        ← hex.findContaining_iff,
        SpyrePinnedAllocator.keep, count_append]
      cases s.findContaining ptr with
      | none => simp
      | some a =>
        by_cases hab : a = b
        · simp [hab, Nat.add_comm]
        · simp [hab]
    | @drop a ha =>
      have howners : (s.drop a).owners = s.owners.erase a := by
        unfold SpyrePinnedAllocator.drop
        dsimp only
        split_ifs <;> rfl
      rw [howners]
      by_cases hab : a = b
      · subst hab
        simp
      · simp [hab, Gives, count_erase_of_ne (Ne.symm hab)]

end Steps

/-- Over every sequence of steps : the cache never returns an active allocation, an address is
pinned exactly when it lies in a buffer that is allocated and not deallocated, which `retain` then
returns with the offset and what is left of it, and a buffer to which a reference was handed out and
not dropped is apart from all the cache hands out, deallocated or not. -/
theorem pinned_exclusive {events : List Event} {s : SpyrePinnedAllocator} (h : Run events s) :
    s.raised = false ∧
      (∀ ptr a, s.retain ptr = some a ↔ ∃ b, Allocated events b ∧ ptr ∈ b.range ∧
        a = ⟨b, ptr - b.hmva, b.hmva + b.capacity - ptr⟩) ∧
      (∀ ptr, s.isPinnedPtr ptr = true ↔ ∃ b, Allocated events b ∧ ptr ∈ b.range) ∧
      ∀ b, 0 < held events b → ∀ b' s', Step s (.acquire b') s' → Disjoint b.range b'.range := by
  have hex := h.exclusive
  have hfind : ∀ ptr b, s.findContaining ptr = some b ↔ Allocated events b ∧ ptr ∈ b.range :=
    fun ptr b => by rw [hex.findContaining_iff, h.mem_allocations_iff]
  refine ⟨hex.quiet, fun ptr a => ?_, fun ptr => ?_, fun b hb b' s' hstep => ?_⟩
  · rw [SpyrePinnedAllocator.retain, Option.map_eq_some_iff]
    refine exists_congr fun b => ?_
    rw [hfind, and_assoc]
    refine and_congr_right fun _ => and_congr_right fun hptr => ?_
    have hcap : b.capacity - (ptr - b.hmva) = b.hmva + b.capacity - ptr := by
      have := hptr.1
      omega
    rw [hcap, eq_comm]
  · rw [SpyrePinnedAllocator.isPinnedPtr, Option.isSome_iff_exists]
    exact exists_congr fun b => hfind ptr b
  · cases hstep with
    | acquire hpromise =>
      rw [← h.count_owners, count_pos_iff] at hb
      exact hpromise b (by simp [hex.owned b hb])

/-- A buffer of 32 bytes. -/
def smallBuffer : PinnedBuffer :=
  ⟨64, 32, Nat.succ_pos _, Nat.succ_pos _⟩

/-- The buffer is retained and deallocated. The references of `allocate` and `deallocate` are gone
and that of `retain` is not, so what the cache hands out next is apart from it. -/
theorem pinned_exclusive_held : ∃ s, Run [.acquire smallBuffer, .publish smallBuffer, .retain 70,
      .deallocate 64, .drop smallBuffer, .drop smallBuffer] s ∧
    s.isPinnedPtr 70 = false ∧ s.raised = false ∧
      ∀ b' s', Step s (.acquire b') s' → Disjoint smallBuffer.range b'.range := by
  have hrun := ((((((Run.nil.snoc (.acquire (b := smallBuffer) (by simp))).snoc
    (.publish (Function.update_self ..))).snoc (.retain 70)).snoc (.deallocate 64)).snoc
    (.drop (b := smallBuffer) (by decide +kernel))).snoc
    (.drop (b := smallBuffer) (by decide +kernel)))
  obtain ⟨hquiet, -, -, hheld⟩ := pinned_exclusive hrun
  refine ⟨_, hrun, by decide +kernel, hquiet, hheld smallBuffer ?_⟩
  rw [← hrun.count_owners]
  decide +kernel

end Pinned

end TorchSpyre
