import Mathlib

/-!
# Dead code

`deadcode_elimination.py` removes the operations whose effect the caller cannot observe. A buffer
is live if it is a graph output, a graph input or a constant, or if a live operation reads it. A
mutation is live while its target is, and keeps the target live. `live_operations` walks over the
list in reverse until nothing changes.

A walk that changes something finds an operation that was not recorded before, so the number of
operations bounds the number of walks (`stable_liveLoop`). What is found is closed under the rules
and part of everything that is (`closed_liveState`, `liveState_least`), so the order of the list
does not matter.

The output of a mutation shares the storage of its target, and an impure operation may write
anywhere. A dead operation writes to no live storage, and a live one reads only live storage. So
live storage holds the same values with and without the dead operations, in whatever order and
however often the operations are executed (`run_filter`). -/

open List

namespace TorchSpyre

namespace DeadCode

/-! ## Liveness -/

/-- What the pass reads of an operation. `mutationTarget` is the buffer a mutation writes into,
and `impure` is `has_side_effects` of a fallback kernel, which is no mutation. -/
structure Operation where
  name : String
  reads : List String
  writes : List String
  mutationTarget : Option String
  impure : Bool
  no_target : impure = true → mutationTarget = none
deriving DecidableEq

/-- What the pass reads of a graph, and the buffers it removed. -/
structure Graph where
  operations : List Operation
  outputNames : List String
  graphInputs : List String
  constants : List String
  removedBuffers : Finset String

/-- The live buffers and operations found so far. -/
structure LiveState where
  bufs : Finset String
  ops : Finset String
deriving DecidableEq

/-- `_has_side_effects`. -/
def hasSideEffects (op : Operation) : Bool :=
  op.mutationTarget.isSome || op.impure

/-- `_mutation_target_is_live`. -/
def mutationTargetIsLive (op : Operation) (liveBufs : Finset String) : Bool :=
  match op.mutationTarget with
  | none => true
  | some target => target ∈ liveBufs

/-- The test of `_walk_once`. -/
def Observable (op : Operation) (liveBufs : Finset String) : Prop :=
  (hasSideEffects op = true ∧ mutationTargetIsLive op liveBufs = true) ∨
    ∃ w ∈ op.writes, w ∈ liveBufs

instance (op : Operation) (liveBufs : Finset String) : Decidable (Observable op liveBufs) := by
  unfold Observable
  infer_instance

/-- The body of `_walk_once`. -/
def walkStep (st : LiveState) (op : Operation) : LiveState :=
  if Observable op st.bufs then
    { bufs := st.bufs ∪ op.reads.toFinset ∪ op.mutationTarget.toFinset
      ops := insert op.name st.ops }
  else st

/-- `_walk_once`. -/
def walkOnce (operations : List Operation) (st : LiveState) : LiveState :=
  operations.reverse.foldl walkStep st

/-- The loop of `live_operations`, for a number of walks. -/
def liveLoop (operations : List Operation) : ℕ → LiveState → LiveState
  | 0, st => st
  | n + 1, st =>
    let next := walkOnce operations st
    if next.bufs.card = st.bufs.card ∧ next.ops.card = st.ops.card then next
    else liveLoop operations n next

namespace Graph

variable (graph : Graph)

/-- The buffers that are live from the start. -/
def roots : Finset String :=
  graph.outputNames.toFinset ∪ graph.graphInputs.toFinset ∪ graph.constants.toFinset

/-- The sets `live_operations` ends with. -/
def liveState : LiveState :=
  liveLoop graph.operations (graph.operations.length + 1) ⟨graph.roots, ∅⟩

/-- `live_operations`. -/
def liveOperations : Finset String :=
  graph.liveState.ops

/-- `deadcode_elimination`. -/
def deadcodeElimination : Graph :=
  let dead := graph.operations.filter fun op => op.name ∉ graph.liveOperations
  { graph with
    operations := graph.operations.filter fun op => op.name ∈ graph.liveOperations
    removedBuffers := graph.removedBuffers ∪ (dead.flatMap Operation.writes).toFinset }

end Graph

/-! ## Walks -/

section Walks

variable {op : Operation} {l operations : List Operation} {st st' : LiveState}

instance : LE LiveState where
  le st st' := st.bufs ⊆ st'.bufs ∧ st.ops ⊆ st'.ops

/-- An operation is in the sets with its reads and its target. -/
structure Recorded (op : Operation) (st : LiveState) : Prop where
  name : op.name ∈ st.ops
  reads : ∀ r ∈ op.reads, r ∈ st.bufs
  target : ∀ t, op.mutationTarget = some t → t ∈ st.bufs

theorem Observable.mono (h : Observable op st.bufs) (hle : st.bufs ⊆ st'.bufs) :
    Observable op st'.bufs := by
  rcases h with ⟨heffect, htarget⟩ | ⟨w, hw, hlive⟩
  · refine .inl ⟨heffect, ?_⟩
    unfold mutationTargetIsLive at htarget ⊢
    cases hop : op.mutationTarget with
    | none => rfl
    | some t =>
      rw [hop] at htarget
      exact decide_eq_true (hle (of_decide_eq_true htarget))
  · exact .inr ⟨w, hw, hle hlive⟩

theorem Recorded.mono (h : Recorded op st) (hle : st ≤ st') : Recorded op st' where
  name := hle.2 h.name
  reads r hr := hle.1 (h.reads r hr)
  target t ht := hle.1 (h.target t ht)

theorem le_walkStep (st : LiveState) (op : Operation) : st ≤ walkStep st op := by
  unfold walkStep
  split_ifs
  · exact ⟨Finset.subset_union_left.trans Finset.subset_union_left, Finset.subset_insert _ _⟩
  · exact ⟨subset_rfl, subset_rfl⟩

theorem recorded_walkStep (h : Observable op st.bufs) : Recorded op (walkStep st op) := by
  rw [walkStep, if_pos h]
  exact
    { name := Finset.mem_insert_self _ _
      reads := fun r hr => by simp [hr]
      target := fun t ht => by simp [ht] }

/-- A step that records nothing new changes nothing. -/
theorem walkStep_of_recorded (h : Recorded op st) : walkStep st op = st := by
  unfold walkStep
  split_ifs with hobs
  · have hbufs : st.bufs ∪ op.reads.toFinset ∪ op.mutationTarget.toFinset = st.bufs := by
      rw [Finset.union_assoc, Finset.union_eq_left]
      intro b hb
      rcases Finset.mem_union.mp hb with hb | hb
      · exact h.reads b (mem_toFinset.mp hb)
      · exact h.target b (Option.mem_toFinset.mp hb)
    rw [hbufs, Finset.insert_eq_of_mem h.name]
  · rfl

theorem le_foldl (l : List Operation) (st : LiveState) : st ≤ l.foldl walkStep st := by
  induction l generalizing st with
  | nil => exact ⟨subset_rfl, subset_rfl⟩
  | cons a l ih =>
    have hstep := le_walkStep st a
    have hrest := ih (walkStep st a)
    exact ⟨hstep.1.trans hrest.1, hstep.2.trans hrest.2⟩

/-- A walk records what is observable before it. -/
theorem recorded_foldl (hop : op ∈ l) (h : Observable op st.bufs) :
    Recorded op (l.foldl walkStep st) := by
  induction l generalizing st with
  | nil => cases hop
  | cons a l ih =>
    rw [foldl_cons]
    rcases mem_cons.mp hop with rfl | hop
    · exact (recorded_walkStep h).mono (le_foldl l _)
    · exact ih hop (h.mono (le_walkStep st a).1)

/-- A walk that changes something records an operation that was not recorded before. -/
theorem exists_new_of_foldl_ne (h : l.foldl walkStep st ≠ st) :
    ∃ op ∈ l, ¬ Recorded op st ∧ Observable op (l.foldl walkStep st).bufs ∧
      Recorded op (l.foldl walkStep st) := by
  induction l generalizing st with
  | nil => exact absurd rfl h
  | cons a l ih =>
    rw [foldl_cons] at h ⊢
    by_cases hstep : walkStep st a = st
    · rw [hstep] at h ⊢
      obtain ⟨op, hop, hnew⟩ := ih h
      exact ⟨op, mem_cons_of_mem a hop, hnew⟩
    · have hobs : Observable a st.bufs := by
        by_contra hobs
        exact hstep (if_neg hobs)
      refine ⟨a, mem_cons_self, fun hrec => hstep (walkStep_of_recorded hrec), ?_, ?_⟩
      · exact hobs.mono ((le_walkStep st a).1.trans (le_foldl l _).1)
      · exact (recorded_walkStep hobs).mono (le_foldl l _)

open Classical in
/-- The operations that are observable and recorded. -/
noncomputable def settled (operations : List Operation) (st : LiveState) : Finset Operation :=
  operations.toFinset.filter fun op => Observable op st.bufs ∧ Recorded op st

theorem mem_settled : op ∈ settled operations st ↔
    op ∈ operations ∧ Observable op st.bufs ∧ Recorded op st := by
  simp [settled]

theorem card_settled_le : (settled operations st).card ≤ operations.length := by
  refine (Finset.card_le_card fun op hop => ?_).trans (toFinset_card_le operations)
  exact mem_toFinset.mpr (mem_settled.mp hop).1

/-- Every walk that changes something settles an operation. -/
theorem card_settled_lt (h : walkOnce operations st ≠ st) :
    (settled operations st).card < (settled operations (walkOnce operations st)).card := by
  have hle : st ≤ walkOnce operations st := le_foldl _ st
  obtain ⟨op, hop, hnew, hobs, hrec⟩ := exists_new_of_foldl_ne h
  refine Finset.card_lt_card (Finset.ssubset_iff_subset_ne.mpr ⟨fun op hop => ?_, fun heq => ?_⟩)
  · obtain ⟨hmem, hobs, hrec⟩ := mem_settled.mp hop
    exact mem_settled.mpr ⟨hmem, hobs.mono hle.1, hrec.mono hle⟩
  · have hmem := mem_settled.mpr ⟨mem_reverse.mp hop, hobs, hrec⟩
    rw [← walkOnce, ← heq] at hmem
    exact hnew (mem_settled.mp hmem).2.2

theorem eq_of_card_eq (hle : st ≤ st') (hbufs : st'.bufs.card = st.bufs.card)
    (hops : st'.ops.card = st.ops.card) : st' = st := by
  obtain ⟨bufs, ops⟩ := st
  obtain ⟨bufs', ops'⟩ := st'
  rw [LiveState.mk.injEq]
  exact ⟨(Finset.eq_of_subset_of_card_le hle.1 hbufs.le).symm,
    (Finset.eq_of_subset_of_card_le hle.2 hops.le).symm⟩

/-- The loop ends with a state that another walk does not change. -/
theorem stable_liveLoop {n : ℕ} (hn : operations.length < n + (settled operations st).card) :
    walkOnce operations (liveLoop operations n st) = liveLoop operations n st := by
  induction n generalizing st with
  | zero =>
    have hcard : (settled operations st).card ≤ operations.length := card_settled_le
    omega
  | succ n ih =>
    unfold liveLoop
    dsimp only
    split_ifs with hcard
    · have heq := eq_of_card_eq (le_foldl operations.reverse st) hcard.1 hcard.2
      show walkOnce operations (walkOnce operations st) = walkOnce operations st
      exact congrArg (walkOnce operations) heq
    · have hne : walkOnce operations st ≠ st := fun heq => hcard (by rw [heq]; exact ⟨rfl, rfl⟩)
      exact ih (by have := card_settled_lt hne; omega)

end Walks

/-! ## The least fixed point -/

/-- Sets that are closed under the rules of liveness. -/
structure Closed (graph : Graph) (bufs ops : Finset String) : Prop where
  roots : graph.roots ⊆ bufs
  name : ∀ op ∈ graph.operations, Observable op bufs → op.name ∈ ops
  reads : ∀ op ∈ graph.operations, Observable op bufs → ∀ r ∈ op.reads, r ∈ bufs
  target : ∀ op ∈ graph.operations, Observable op bufs →
    ∀ t, op.mutationTarget = some t → t ∈ bufs

section Fixed

variable {graph : Graph} {bufs ops : Finset String}

theorem le_liveLoop (operations : List Operation) (n : ℕ) (st : LiveState) :
    st ≤ liveLoop operations n st := by
  induction n generalizing st with
  | zero => exact ⟨subset_rfl, subset_rfl⟩
  | succ n ih =>
    have hwalk : st ≤ walkOnce operations st := le_foldl operations.reverse st
    unfold liveLoop
    dsimp only
    split_ifs
    · exact hwalk
    · have hrest := ih (walkOnce operations st)
      exact ⟨hwalk.1.trans hrest.1, hwalk.2.trans hrest.2⟩

theorem walkOnce_liveState : walkOnce graph.operations graph.liveState = graph.liveState :=
  stable_liveLoop (by omega)

/-- What is found is closed under the rules. -/
theorem closed_liveState (graph : Graph) :
    Closed graph graph.liveState.bufs graph.liveState.ops := by
  have hrecorded : ∀ op ∈ graph.operations, Observable op graph.liveState.bufs →
      Recorded op graph.liveState := fun op hop hobs => by
    have hrec := recorded_foldl (mem_reverse.mpr hop) hobs
    rwa [← walkOnce, walkOnce_liveState] at hrec
  exact
    { roots := (le_liveLoop graph.operations (graph.operations.length + 1) ⟨graph.roots, ∅⟩).1
      name := fun op hop hobs => (hrecorded op hop hobs).name
      reads := fun op hop hobs => (hrecorded op hop hobs).reads
      target := fun op hop hobs => (hrecorded op hop hobs).target }

variable {operations : List Operation} {st : LiveState}

/-- A step stays inside sets that are closed. -/
theorem walkStep_le (h : Closed graph bufs ops) {op : Operation} (hop : op ∈ graph.operations)
    (hle : st ≤ ⟨bufs, ops⟩) : walkStep st op ≤ ⟨bufs, ops⟩ := by
  unfold walkStep
  split_ifs with hobs
  · have hobs : Observable op bufs :=
      hobs.mono (show st.bufs ⊆ LiveState.bufs ⟨bufs, ops⟩ from hle.1)
    refine ⟨Finset.union_subset (Finset.union_subset hle.1 fun r hr => ?_) fun t ht => ?_,
      Finset.insert_subset (h.name op hop hobs) hle.2⟩
    · exact h.reads op hop hobs r (mem_toFinset.mp hr)
    · exact h.target op hop hobs t (Option.mem_toFinset.mp ht)
  · exact hle

theorem foldl_le (h : Closed graph bufs ops) {l : List Operation}
    (hl : ∀ op ∈ l, op ∈ graph.operations) (hle : st ≤ ⟨bufs, ops⟩) :
    l.foldl walkStep st ≤ ⟨bufs, ops⟩ := by
  induction l generalizing st with
  | nil => exact hle
  | cons a l ih =>
    exact ih (fun op hop => hl op (mem_cons_of_mem a hop))
      (walkStep_le h (hl a mem_cons_self) hle)

theorem liveLoop_le (h : Closed graph bufs ops) {n : ℕ} (hle : st ≤ ⟨bufs, ops⟩) :
    liveLoop graph.operations n st ≤ ⟨bufs, ops⟩ := by
  induction n generalizing st with
  | zero => exact hle
  | succ n ih =>
    have hwalk : walkOnce graph.operations st ≤ ⟨bufs, ops⟩ :=
      foldl_le h (fun op hop => mem_reverse.mp hop) hle
    unfold liveLoop
    dsimp only
    split_ifs
    · exact hwalk
    · exact ih hwalk

/-- What is found is part of everything that is closed. -/
theorem liveState_least (h : Closed graph bufs ops) :
    graph.liveState.bufs ⊆ bufs ∧ graph.liveState.ops ⊆ ops :=
  liveLoop_le h ⟨h.roots, Finset.empty_subset ops⟩

/-- The rules do not know the order of the list. -/
theorem Closed.perm (h : Closed graph bufs ops) (hperm : operations.Perm graph.operations) :
    Closed { graph with operations } bufs ops where
  roots := h.roots
  name op hop := h.name op (hperm.mem_iff.mp hop)
  reads op hop := h.reads op (hperm.mem_iff.mp hop)
  target op hop := h.target op (hperm.mem_iff.mp hop)

theorem liveOperations_perm (hperm : operations.Perm graph.operations) :
    Graph.liveOperations { graph with operations } = graph.liveOperations := by
  refine subset_antisymm ?_ ?_
  · exact (liveState_least ((closed_liveState graph).perm hperm)).2
  · have hclosed : Closed graph _ _ :=
      (closed_liveState { graph with operations }).perm hperm.symm
    exact (liveState_least hclosed).2

/-- The rules of `other` ask no more than those of `graph`. -/
theorem Closed.of_observable {other : Graph} (h : Closed graph bufs ops)
    (hroots : other.roots = graph.roots)
    (hops : ∀ op ∈ other.operations, Observable op bufs → op ∈ graph.operations) :
    Closed other bufs ops where
  roots := hroots ▸ h.roots
  name op hop hobs := h.name op (hops op hop hobs) hobs
  reads op hop hobs := h.reads op (hops op hop hobs) hobs
  target op hop hobs := h.target op (hops op hop hobs) hobs

end Fixed

/-! ## Execution -/

/-- The buffer whose storage a buffer uses : the output of a mutation lies in its target. -/
def Graph.storage (graph : Graph) (b : String) : String :=
  ((graph.operations.find? fun op => op.mutationTarget.isSome && decide (b ∈ op.writes)).bind
    Operation.mutationTarget).getD b

/-- The output of a mutation is another name of its target only : no other operation writes it, and
no mutation has it for its target. -/
structure Graph.Aliases (graph : Graph) : Prop where
  output : ∀ op ∈ graph.operations, op.mutationTarget ≠ none → ∀ w ∈ op.writes,
    ∀ o ∈ graph.operations, w ∈ o.writes → o = op
  target : ∀ op ∈ graph.operations, op.mutationTarget ≠ none → ∀ w ∈ op.writes,
    ∀ o ∈ graph.operations, o.mutationTarget ≠ some w

/-- The storage an operation writes to. -/
def Graph.places (graph : Graph) (op : Operation) : List String :=
  (op.writes ++ op.mutationTarget.toList).map graph.storage

section Execution

variable {V : Type} (graph : Graph) (compute : Operation → String → List V → Option V → V → V)

/-- Executing an operation : all storage it writes to gets a value that depends on what it reads, on
the target and on what was there. An impure operation may write anywhere. -/
def execute (s : String → V) (op : Operation) (l : String) : V :=
  if op.impure = true ∨ l ∈ graph.places op then
    compute op l (op.reads.map fun r => s (graph.storage r))
      (op.mutationTarget.map fun t => s (graph.storage t)) (s l)
  else s l

/-- Executing operations one after the other. -/
def run (trace : List Operation) (s : String → V) : String → V :=
  trace.foldl (execute graph compute) s

variable {graph compute} {op : Operation} {b l t : String} {s s' : String → V}

/-- A buffer has storage of its own, or is the output of a mutation. -/
theorem storage_cases (graph : Graph) (b : String) : graph.storage b = b ∨
    ∃ op ∈ graph.operations, op.mutationTarget = some (graph.storage b) ∧ b ∈ op.writes := by
  unfold Graph.storage
  cases hfind : graph.operations.find? fun op =>
      op.mutationTarget.isSome && decide (b ∈ op.writes) with
  | none => exact .inl rfl
  | some op =>
    have hfound := find?_some hfind
    rw [Bool.and_eq_true] at hfound
    obtain ⟨t, ht⟩ := Option.isSome_iff_exists.mp hfound.1
    exact .inr ⟨op, mem_of_find?_eq_some hfind, by simp [ht], of_decide_eq_true hfound.2⟩

/-- With a buffer its storage is live. -/
theorem storage_mem (hb : b ∈ graph.liveState.bufs) : graph.storage b ∈ graph.liveState.bufs := by
  rcases storage_cases graph b with hself | ⟨op, hop, ht, hw⟩
  · rwa [hself]
  · exact (closed_liveState graph).target op hop (.inr ⟨b, hw, hb⟩) _ ht

section Aliases

variable (h : graph.Aliases)
include h

/-- An operation that may write to live storage is observable. -/
theorem observable_of_writes (hop : op ∈ graph.operations)
    (hl : op.impure = true ∨ l ∈ graph.places op) (hlive : l ∈ graph.liveState.bufs) :
    Observable op graph.liveState.bufs := by
  rcases hl with himpure | hl
  · refine .inl ⟨by simp [hasSideEffects, himpure], ?_⟩
    simp [mutationTargetIsLive, op.no_target himpure]
  have htarget : op.mutationTarget = some l → Observable op graph.liveState.bufs := fun ht =>
    .inl ⟨by simp [hasSideEffects, ht], by simp [mutationTargetIsLive, ht, hlive]⟩
  obtain ⟨w, hw, rfl⟩ := mem_map.mp hl
  rcases storage_cases graph w with hself | ⟨o, ho, ht, how⟩
  · rw [hself] at hlive htarget
    rcases mem_append.mp hw with hw | hw
    · exact .inr ⟨w, hw, hlive⟩
    · exact htarget (Option.mem_toList.mp hw)
  · have hmutation : o.mutationTarget ≠ none := by simp [ht]
    rcases mem_append.mp hw with hw | hw
    · obtain rfl := h.output o ho hmutation w how op hop hw
      exact htarget ht
    · exact absurd (Option.mem_toList.mp hw) (h.target o ho hmutation w how op hop)

/-- An operation that is not live leaves live storage alone. -/
theorem execute_dead (hop : op ∈ graph.operations) (hdead : op.name ∉ graph.liveOperations)
    (s : String → V) (hl : l ∈ graph.liveState.bufs) : execute graph compute s op l = s l :=
  if_neg fun hwrites =>
    hdead ((closed_liveState graph).name op hop (observable_of_writes h hop hwrites hl))

/-- What an operation leaves in live storage depends on live storage only. -/
theorem execute_congr (hop : op ∈ graph.operations) (hs : ∀ l ∈ graph.liveState.bufs, s l = s' l)
    (hl : l ∈ graph.liveState.bufs) :
    execute graph compute s op l = execute graph compute s' op l := by
  unfold execute
  split_ifs with hwrites
  · have hclosed := closed_liveState graph
    have hobs := observable_of_writes h hop hwrites hl
    have hreads : (op.reads.map fun r => s (graph.storage r)) =
        op.reads.map fun r => s' (graph.storage r) :=
      map_congr_left fun r hr => hs _ (storage_mem (hclosed.reads op hop hobs r hr))
    have htarget : (op.mutationTarget.map fun t => s (graph.storage t)) =
        op.mutationTarget.map fun t => s' (graph.storage t) :=
      Option.map_congr fun t ht => hs _ (storage_mem (hclosed.target op hop hobs t ht))
    rw [hreads, htarget, hs l hl]
  · exact hs l hl

/-- Live storage holds the same values without the dead operations. -/
theorem run_filter {trace : List Operation} (htrace : ∀ op ∈ trace, op ∈ graph.operations)
    (hs : ∀ l ∈ graph.liveState.bufs, s l = s' l) :
    ∀ l ∈ graph.liveState.bufs, run graph compute trace s l =
      run graph compute (trace.filter fun op => op.name ∈ graph.liveOperations) s' l := by
  induction trace generalizing s s' with
  | nil => exact hs
  | cons a trace ih =>
    have ha := htrace a mem_cons_self
    have hrest : ∀ op ∈ trace, op ∈ graph.operations := fun op hop =>
      htrace op (mem_cons_of_mem a hop)
    by_cases hlive : a.name ∈ graph.liveOperations
    · rw [filter_cons_of_pos (by simpa using hlive)]
      exact ih hrest fun l hl => execute_congr h ha hs hl
    · rw [filter_cons_of_neg (by simpa using hlive)]
      exact ih hrest fun l hl => (execute_dead h ha hlive s hl).trans (hs l hl)

end Aliases

end Execution

/-- The operations that are found are the least fixed point of the rules, in every order of the
list. Where the output of a mutation is another name of its target only, removing the others changes
no output, input or constant, in whatever order and however often the operations are executed. -/
theorem deadcodeElimination_sound (graph : Graph) :
    (∃ bufs, Closed graph bufs graph.liveOperations ∧
      ∀ bufs' ops', Closed graph bufs' ops' → bufs ⊆ bufs' ∧ graph.liveOperations ⊆ ops') ∧
    (∀ operations : List Operation, operations.Perm graph.operations →
      Graph.liveOperations { graph with operations } = graph.liveOperations) ∧
    (graph.Aliases →
      ∀ (V : Type) (compute : Operation → String → List V → Option V → V → V) (s : String → V)
        (trace : List Operation), (∀ op ∈ trace, op ∈ graph.operations) → ∀ b ∈ graph.roots,
          run graph compute trace s (graph.storage b) =
            run graph compute (trace.filter fun op => op ∈ graph.deadcodeElimination.operations) s
              (graph.storage b)) := by
  refine ⟨⟨graph.liveState.bufs, closed_liveState graph, fun _ _ => liveState_least⟩,
    fun _ => liveOperations_perm, fun haliases V compute s trace htrace b hb => ?_⟩
  have hfilter : (trace.filter fun op => op ∈ graph.deadcodeElimination.operations) =
      trace.filter fun op => op.name ∈ graph.liveOperations := by
    refine filter_congr fun op hop => ?_
    simp [Graph.deadcodeElimination, htrace op hop]
  rw [hfilter]
  exact run_filter haliases htrace (fun _ _ => rfl) _
    (storage_mem ((closed_liveState graph).roots hb))

/-- A fallback that writes somewhere, a mutation of `x` whose output is returned, and an operation
that nobody reads. -/
def mutatesInput : Graph where
  operations := [⟨"op0", ["x"], ["buf0"], none, true, fun _ => rfl⟩,
    ⟨"op1", ["buf0"], ["buf1"], some "x", false, nofun⟩,
    ⟨"op2", ["x"], ["buf2"], none, false, nofun⟩]
  outputNames := ["buf1"]
  graphInputs := ["x"]
  constants := []
  removedBuffers := ∅

/-- The output is the storage of `x`, and only the last operation is removed. -/
theorem deadcodeElimination_sound_mutatesInput :
    mutatesInput.storage "buf1" = "x" ∧
    mutatesInput.deadcodeElimination.operations.map Operation.name = ["op0", "op1"] ∧
    ∀ (compute : Operation → String → List ℤ → Option ℤ → ℤ → ℤ) (s : String → ℤ),
      run mutatesInput compute mutatesInput.operations s "x" =
        run mutatesInput compute (mutatesInput.operations.filter fun op =>
          op ∈ mutatesInput.deadcodeElimination.operations) s "x" := by
  have haliases : mutatesInput.Aliases := ⟨by decide, by decide⟩
  refine ⟨by decide, by decide, fun compute s => ?_⟩
  exact (deadcodeElimination_sound mutatesInput).2.2 haliases ℤ compute s _ (fun _ hop => hop)
    "buf1"
    (by decide)

/-- A second pass finds nothing more to remove, and an operation survives exactly when all sets that
are closed under the rules of liveness contain it. -/
theorem deadcodeElimination_idempotent (graph : Graph) :
    graph.deadcodeElimination.deadcodeElimination = graph.deadcodeElimination ∧
      ∀ op, op ∈ graph.deadcodeElimination.operations ↔
        op ∈ graph.operations ∧ ∀ bufs ops, Closed graph bufs ops → op.name ∈ ops := by
  generalize honce : graph.deadcodeElimination = once
  have hroots : once.roots = graph.roots := by rw [← honce]; rfl
  have hmem : ∀ op, op ∈ once.operations ↔
      op ∈ graph.operations ∧ op.name ∈ graph.liveOperations := by
    simp [← honce, Graph.deadcodeElimination]
  have hle := liveState_least ((closed_liveState graph).of_observable hroots
    fun op hop _ => ((hmem op).1 hop).1)
  -- what is observable from the buffers of the second pass was kept by the first
  have hge := liveState_least ((closed_liveState once).of_observable hroots.symm
    fun op hop hobs => (hmem op).2 ⟨hop, (closed_liveState graph).name op hop (hobs.mono hle.1)⟩)
  have hall : ∀ op ∈ once.operations, op.name ∈ once.liveOperations := fun op hop =>
    hge.2 ((hmem op).1 hop).2
  have hdead : once.operations.filter (fun op => op.name ∉ once.liveOperations) = [] := by
    simpa using hall
  have hkept : once.operations.filter (fun op => op.name ∈ once.liveOperations) =
      once.operations := by
    simpa using hall
  refine ⟨?_, fun op => (hmem op).trans (and_congr_right fun _ => ⟨fun hop bufs ops hclosed => ?_,
    fun hop => hop _ _ (closed_liveState graph)⟩)⟩
  · simp only [Graph.deadcodeElimination, hdead, hkept, flatMap_nil, toFinset_nil,
      Finset.union_empty]
  · exact (liveState_least hclosed).2 hop

end DeadCode

end TorchSpyre
