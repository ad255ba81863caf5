import Mathlib
import TorchSpyre.Checked

/-!
# Constant deduplication

`dedup_constants.py` merges the constants of a graph that have the same value, dtype and device. The
first constant of a group stays, each later one is dropped, and the operations that read it are made
to read the first. The surviving constants then move to the front.

Values are grouped as keys of a Python dictionary, so a group may hold values of different bit
patterns (`0.0` and `-0.0`). A duplicate that is a graph output is not redirected, and is dropped
all the same.

The loop over the duplicates has a closed form : the survivors with their reads renamed
(`dedupAndPromoteConstants_eq`). A constant kept in place of others is never dropped itself, so the
renamings do not meet (`swapName_rename`), and what the graph's readers and outputs see follows from
the renaming. -/

open List

namespace TorchSpyre

namespace DedupConstants

open Checked

/-! ## Values and groups -/

/-- A Python number. A float has its sign apart, since zero has one. A `nan` is the object that
holds it. -/
inductive PyNumber where
  | bool (b : Bool)
  | int (z : ℤ)
  | float (negative : Bool) (magnitude : ℚ≥0)
  | inf (negative : Bool)
  | nan (object : ℕ)
deriving DecidableEq

/-- What a dictionary compares of a number : its value, whatever its type, and the object itself
for a `nan`. -/
def PyNumber.key : PyNumber → ℚ ⊕ Bool ⊕ ℕ
  | .bool b => .inl (if b then 1 else 0)
  | .int z => .inl z
  | .float negative magnitude => .inl (if negative then -magnitude else magnitude)
  | .inf negative => .inr (.inl negative)
  | .nan object => .inr (.inr object)

/-- A `torch.device`. -/
structure Device where
  type : String
  index : Option ℕ
deriving DecidableEq

variable {δ β : Type}

/-- What the pass reads of a `SpyreConstantFallback`. -/
structure Constant (δ : Type) where
  name : String
  value : PyNumber
  dtype : δ
  device : Device
deriving DecidableEq

/-- `_constant_key`. -/
def constantKey (c : Constant δ) : (ℚ ⊕ Bool ⊕ ℕ) × δ × Device :=
  (c.value.key, c.dtype, c.device)

section Group

variable {κ α : Type} [DecidableEq κ]

/-- `groups.setdefault(key, []).append(x)`. -/
def setdefaultAppend (key : α → κ) : List (κ × List α) → α → List (κ × List α)
  | [], x => [(key x, [x])]
  | (k, group) :: groups, x =>
    if k = key x then (k, group ++ [x]) :: groups
    else (k, group) :: setdefaultAppend key groups x

/-- The elements of a list by their key, in order of first appearance. -/
def groupsOf (key : α → κ) (l : List α) : List (κ × List α) :=
  l.foldl (setdefaultAppend key) []

theorem setdefaultAppend_map {key : α → κ} {x : α} {f : κ → List α} :
    ∀ {ks : List κ}, ks.Nodup → setdefaultAppend key (ks.map fun k => (k, f k)) x =
      (if key x ∈ ks then ks.map fun k => (k, if k = key x then f k ++ [x] else f k)
        else (ks.map fun k => (k, f k)) ++ [(key x, [x])])
  | [], _ => by simp [setdefaultAppend]
  | k :: ks, hnd => by
    obtain ⟨hk, hnd⟩ := nodup_cons.1 hnd
    rw [map_cons, setdefaultAppend]
    by_cases hx : k = key x
    · have hrest : (ks.map fun k => (k, f k)) =
          ks.map fun k => (k, if k = key x then f k ++ [x] else f k) :=
        map_congr_left fun k' hk' => by
          rw [if_neg fun h : k' = key x => hk ((hx.trans h.symm) ▸ hk')]
      rw [if_pos hx, if_pos (by simp [hx]), map_cons, if_pos hx, hrest]
    · rw [if_neg hx, setdefaultAppend_map hnd]
      by_cases hmem : key x ∈ ks
      · rw [if_pos hmem, if_pos (mem_cons_of_mem k hmem), map_cons, if_neg hx]
      · rw [if_neg hmem, if_neg (by simp [hmem, Ne.symm hx]), cons_append]

/-- Each group holds the elements with its key. -/
theorem groupsOf_eq (key : α → κ) (l : List α) : ∃ ks : List κ, ks.Nodup ∧
    (∀ k, k ∈ ks ↔ k ∈ l.map key) ∧
      groupsOf key l = ks.map fun k => (k, l.filter fun y => key y = k) := by
  induction l using List.reverseRecOn with
  | nil => exact ⟨[], nodup_nil, by simp, rfl⟩
  | append_singleton l x ih =>
    obtain ⟨ks, hnd, hks, heq⟩ := ih
    have hstep : groupsOf key (l ++ [x]) = setdefaultAppend key (groupsOf key l) x := by
      rw [groupsOf, foldl_append]
      rfl
    rw [hstep, heq, setdefaultAppend_map hnd]
    have hold : ∀ k ∈ ks, (l ++ [x]).filter (fun y => key y = k) =
        if k = key x then (l.filter fun y => key y = k) ++ [x]
          else l.filter fun y => key y = k := fun k _ => by
      by_cases hk : k = key x
      · simp [filter_append, hk]
      · simp [filter_append, hk, Ne.symm hk]
    by_cases hx : key x ∈ ks
    · rw [if_pos hx]
      refine ⟨ks, hnd, fun k => ?_, map_congr_left fun k hk => by rw [hold k hk]⟩
      rw [map_append, mem_append, ← hks k, map_singleton, mem_singleton]
      exact ⟨.inl, fun h => h.elim id fun h => h ▸ hx⟩
    · rw [if_neg hx]
      have hnone : (l.filter fun y => key y = key x) = [] :=
        filter_eq_nil_iff.2 fun y hy h => hx ((hks _).2 (by
          rw [← of_decide_eq_true h]
          exact mem_map_of_mem hy))
      refine ⟨ks ++ [key x], nodup_append.2 ⟨hnd, nodup_singleton _, fun a ha b hb => ?_⟩,
        fun k => ?_, ?_⟩
      · rw [mem_singleton.1 hb]
        exact fun h => hx (h ▸ ha)
      · simp only [mem_append, map_append, hks k, map_singleton, mem_singleton]
      · rw [map_append, map_singleton, filter_append, hnone]
        congr 1
        · exact map_congr_left fun k hk => by
            rw [hold k hk, if_neg fun h : k = key x => hx (h ▸ hk)]
        · simp

end Group

/-- The later constants of each group, each with the first. -/
def duplicates {κ : Type} (groups : List (κ × List (Constant δ))) :
    List (Constant δ × Constant δ) :=
  groups.flatMap fun g => g.2.tail.flatMap fun dup => g.2.head?.toList.map fun canonical =>
    (dup, canonical)

/-! ## Graphs -/

/-- What the pass reads of an operation : a constant, a `ComputedBuffer`, or another node, named by
its type. A constant reads nothing. -/
inductive Operation (δ : Type) where
  | constant (c : Constant δ)
  | computed (name : String) (reads : List String)
  | other (typeName name : String) (reads : List String)
deriving DecidableEq

namespace Operation

/-- The name of the buffer an operation makes. -/
def name : Operation δ → String
  | .constant c => c.name
  | .computed name _ => name
  | .other _ name _ => name

/-- The names an operation reads. -/
def reads : Operation δ → List String
  | .constant _ => []
  | .computed _ reads => reads
  | .other _ _ reads => reads

/-- The name of its class. -/
def typeName : Operation δ → String
  | .constant _ => "SpyreConstantFallback"
  | .computed _ _ => "ComputedBuffer"
  | .other typeName _ _ => typeName

/-- The constant an operation makes. -/
def constant? : Operation δ → Option (Constant δ)
  | .constant c => some c
  | _ => none

/-- Rename what an operation reads. -/
def mapReads (f : String → String) : Operation δ → Operation δ
  | .constant c => .constant c
  | .computed name reads => .computed name (reads.map f)
  | .other typeName name reads => .other typeName name (reads.map f)

@[simp] theorem name_mapReads (f : String → String) (op : Operation δ) :
    (op.mapReads f).name = op.name := by
  cases op <;> rfl

@[simp] theorem reads_mapReads (f : String → String) (op : Operation δ) :
    (op.mapReads f).reads = op.reads.map f := by
  cases op <;> rfl

theorem mapReads_mapReads (f h : String → String) (op : Operation δ) :
    (op.mapReads f).mapReads h = op.mapReads fun r => h (f r) := by
  cases op <;> simp [mapReads]

theorem mapReads_congr {f h : String → String} {op : Operation δ}
    (hfh : ∀ r ∈ op.reads, f r = h r) : op.mapReads f = op.mapReads h := by
  cases op with
  | constant c => rfl
  | computed name reads => exact congrArg _ (map_congr_left hfh)
  | other typeName name reads => exact congrArg _ (map_congr_left hfh)

theorem mapReads_id (op : Operation δ) : op.mapReads (fun r => r) = op := by
  cases op <;> simp [mapReads]

end Operation

/-- The constants of a list of operations. -/
def constants (operations : List (Operation δ)) : List (Constant δ) :=
  operations.filterMap Operation.constant?

theorem mem_constants {operations : List (Operation δ)} {c : Constant δ} :
    c ∈ constants operations ↔ Operation.constant c ∈ operations := by
  simp only [constants, mem_filterMap]
  constructor
  · rintro ⟨op, hop, hc⟩
    cases op with
    | constant c' =>
      obtain rfl : c' = c := Option.some.inj hc
      exact hop
    | computed name reads => cases hc
    | other typeName name reads => cases hc
  · exact fun h => ⟨_, h, rfl⟩

/-- What the pass reads of a graph. Buffer names are distinct. -/
structure Graph (δ : Type) where
  operations : List (Operation δ)
  inputs : List String
  outputNames : List String
  nodup : (operations.map Operation.name).Nodup
  fresh : ∀ op ∈ operations, op.name ∉ inputs

/-- A node that cannot be made to read another buffer reads a duplicate : its type and the name of
the duplicate, as the `AssertionError` has them. -/
structure UnsupportedConsumer where
  typeName : String
  name : String
deriving DecidableEq

/-- The operations and the buffers removed so far. -/
structure State (δ : Type) where
  operations : List (Operation δ)
  removedBuffers : List String
deriving DecidableEq

section Pass

variable [DecidableEq δ]

/-- The name a `NameSwapHandler` with one entry passes on. -/
def swapName (dup canonical r : String) : String :=
  if r = dup then canonical else r

/-- `_patch_inner_fn` on the operation of a given name. -/
def patchInnerFn (consumer dup canonical : String) (operations : List (Operation δ)) :
    List (Operation δ) :=
  operations.map fun op =>
    if op.name = consumer then op.mapReads (swapName dup canonical) else op

/-- `_build_reverse_consumer_index`. -/
def buildReverseConsumerIndex (operations : List (Operation δ)) (duplicateNames : List String)
    (name : String) : List (Operation δ) :=
  if name ∈ duplicateNames then operations.filter fun op => name ∈ op.reads else []

/-- One consumer of the loop of `_redirect_consumers`. -/
def redirectStep (dup canonical : Constant δ) (operations : List (Operation δ))
    (op : Operation δ) : Except UnsupportedConsumer (List (Operation δ)) :=
  if op = .constant dup ∨ op = .constant canonical then .ok operations
  else match op with
    | .computed name _ => .ok (patchInnerFn name dup.name canonical.name operations)
    | op => .error ⟨op.typeName, dup.name⟩

/-- `_redirect_consumers`. -/
def redirectConsumers (outputNames : List String) (consumers : List (Operation δ))
    (dup canonical : Constant δ) (operations : List (Operation δ)) :
    Except UnsupportedConsumer (List (Operation δ)) :=
  if dup.name ∈ outputNames then .ok operations
  else foldE (redirectStep dup canonical) operations consumers

/-- `_drop_constant`. -/
def dropConstant (dup : Constant δ) (operations : List (Operation δ))
    (removedBuffers : List String) : State δ where
  operations := operations.erase (.constant dup)
  removedBuffers := dup.name :: removedBuffers

/-- The surviving constants first. -/
def promote (operations : List (Operation δ)) : List (Operation δ) :=
  let constants := operations.filter fun op => op.constant?.isSome
  if constants = [] then operations
  else constants ++ operations.filter fun op => op.constant?.isNone

/-- One duplicate of the loop of the second step. -/
def dedupStep (outputNames : List String) (consumersByName : String → List (Operation δ))
    (st : State δ) (p : Constant δ × Constant δ) : Except UnsupportedConsumer (State δ) := do
  let operations ←
    redirectConsumers outputNames (consumersByName p.1.name) p.1 p.2 st.operations
  .ok (dropConstant p.1 operations st.removedBuffers)

/-- The first two steps of `dedup_and_promote_constants`. -/
def dedup (graph : Graph δ) : Except UnsupportedConsumer (State δ) :=
  let groups := groupsOf constantKey (constants graph.operations)
  let hasDuplicates := groups.any fun g => 1 < g.2.length
  let duplicateNames :=
    ((duplicates groups).map fun p => p.1.name).filter fun name => name ∉ graph.outputNames
  let consumersByName := if duplicateNames = [] then fun _ => []
    else buildReverseConsumerIndex graph.operations duplicateNames
  if hasDuplicates then
    foldE (dedupStep graph.outputNames consumersByName) ⟨graph.operations, []⟩
      (duplicates groups)
  else .ok ⟨graph.operations, []⟩

/-- `dedup_and_promote_constants`. -/
def dedupAndPromoteConstants (graph : Graph δ) : Except UnsupportedConsumer (State δ) := do
  let st ← dedup graph
  .ok { st with operations := promote st.operations }

/-- A constant that is not the first with its key, and the first. -/
structure IsDuplicate (graph : Graph δ) (dup canonical : Constant δ) : Prop where
  mem : dup ∈ constants graph.operations
  find : (constants graph.operations).find? (fun c => constantKey c = constantKey dup) =
    some canonical
  ne : dup ≠ canonical

/-- No duplicate has the name. -/
def Survives (graph : Graph δ) (name : String) : Prop :=
  ∀ dup canonical, IsDuplicate graph dup canonical → name ≠ dup.name

/-! ## The renaming -/

namespace Graph

variable {graph : Graph δ}

omit [DecidableEq δ] in
theorem eq_of_name_eq {op op' : Operation δ} (hop : op ∈ graph.operations)
    (hop' : op' ∈ graph.operations) (h : op.name = op'.name) : op = op' :=
  inj_on_of_nodup_map graph.nodup hop hop' h

omit [DecidableEq δ] in
theorem nodup_constants (graph : Graph δ) : (constants graph.operations).Nodup :=
  List.Nodup.filterMap (fun op op' c hc hc' => by
    cases op <;> cases op' <;> simp_all [Operation.constant?]) (List.Nodup.of_map _ graph.nodup)

omit [DecidableEq δ] in
theorem eq_of_constant_name_eq {c c' : Constant δ} (hc : c ∈ constants graph.operations)
    (hc' : c' ∈ constants graph.operations) (h : c.name = c'.name) : c = c' := by
  have := eq_of_name_eq (mem_constants.1 hc) (mem_constants.1 hc') h
  exact Operation.constant.inj this

end Graph

namespace IsDuplicate

variable {graph : Graph δ} {dup canonical : Constant δ}

theorem canonical_mem (h : IsDuplicate graph dup canonical) :
    canonical ∈ constants graph.operations :=
  mem_of_find?_eq_some h.find

theorem key_eq (h : IsDuplicate graph dup canonical) : constantKey canonical = constantKey dup := by
  simpa using find?_some h.find

variable {canonical' : Constant δ}

/-- What stands for others is the first with its key. -/
theorem not_canonical (h : IsDuplicate graph dup canonical) :
    ¬ IsDuplicate graph canonical canonical' := by
  intro h'
  have hfind := h'.find
  rw [h.key_eq, h.find] at hfind
  exact h'.ne (Option.some.inj hfind)

theorem canonical_unique (h : IsDuplicate graph dup canonical)
    (h' : IsDuplicate graph dup canonical') : canonical = canonical' :=
  Option.some.inj (h.find.symm.trans h'.find)

theorem name_ne (h : IsDuplicate graph dup canonical) {dup' : Constant δ}
    (h' : IsDuplicate graph dup' canonical') : canonical.name ≠ dup'.name := by
  intro heq
  obtain rfl := Graph.eq_of_constant_name_eq h.canonical_mem h'.mem heq
  exact h.not_canonical h'

end IsDuplicate

variable {canonical dup : Constant δ} {p : Constant δ × Constant δ} {graph : Graph δ}
  {merged : List (Constant δ × Constant δ)} {consumers operations operations' : List (Operation δ)}
  {outputNames : List String} {op : Operation δ} {st : State δ} {r : String}

theorem mem_duplicates :
    p ∈ duplicates (groupsOf constantKey (constants graph.operations)) ↔
      IsDuplicate graph p.1 p.2 := by
  obtain ⟨ks, -, hks, heq⟩ := groupsOf_eq constantKey (constants graph.operations)
  obtain ⟨dup, canonical⟩ := p
  rw [heq, duplicates, flatMap_map]
  simp only [mem_flatMap, mem_map, Option.mem_toList, head?_filter, Prod.mk.injEq]
  constructor
  · rintro ⟨k, -, d, hd, c, hc, rfl, rfl⟩
    have hmem := mem_filter.1 (mem_of_mem_tail hd)
    obtain rfl : constantKey d = k := of_decide_eq_true hmem.2
    refine ⟨hmem.1, hc, ?_⟩
    rintro rfl
    have hnd := (Graph.nodup_constants graph).filter fun y => constantKey y = constantKey d
    rw [← head?_filter] at hc
    rw [eq_cons_of_mem_head? hc, nodup_cons] at hnd
    exact hnd.1 hd
  · intro h
    have hhead := h.find
    rw [← head?_filter] at hhead
    have hsplit := eq_cons_of_mem_head? hhead
    refine ⟨constantKey dup, (hks _).2 (mem_map_of_mem h.mem), dup, ?_, canonical, h.find,
      rfl, rfl⟩
    have hmem : dup ∈ (constants graph.operations).filter
        fun y => constantKey y = constantKey dup := mem_filter.2 ⟨h.mem, by simp⟩
    rw [hsplit] at hmem
    exact (mem_cons.1 hmem).resolve_left h.ne

/-- The name a buffer is read under once the given duplicates are merged. -/
def rename (outputNames : List String) (merged : List (Constant δ × Constant δ)) (r : String) :
    String :=
  ((merged.find? fun p => p.1.name = r ∧ r ∉ outputNames).map fun p => p.2.name).getD r

theorem rename_of_mem (hmerged : ∀ p ∈ merged, IsDuplicate graph p.1 p.2)
    (hmem : (dup, canonical) ∈ merged) (hout : dup.name ∉ outputNames) :
    rename outputNames merged dup.name = canonical.name := by
  have hsome : (merged.find? fun p => p.1.name = dup.name ∧ dup.name ∉ outputNames).isSome := by
    rw [find?_isSome]
    exact ⟨_, hmem, by simp [hout]⟩
  obtain ⟨⟨dup', canonical'⟩, hfind⟩ := Option.isSome_iff_exists.1 hsome
  have hmem' := mem_of_find?_eq_some hfind
  have hname : dup'.name = dup.name := by
    have := find?_some hfind
    simp only [decide_eq_true_eq] at this
    exact this.1
  obtain rfl : dup' = dup :=
    Graph.eq_of_constant_name_eq (hmerged _ hmem').mem (hmerged _ hmem).mem hname
  obtain rfl : canonical' = canonical := (hmerged _ hmem').canonical_unique (hmerged _ hmem)
  rw [rename, hfind]
  rfl

omit [DecidableEq δ] in
theorem rename_eq_self (h : ∀ p ∈ merged, p.1.name = r → r ∈ outputNames) :
    rename outputNames merged r = r := by
  have hnone : (merged.find? fun p => p.1.name = r ∧ r ∉ outputNames) = none := by
    rw [find?_eq_none]
    intro p hp
    simpa using h p hp
  rw [rename, hnone]
  rfl

/-- Renamings do not meet : what a buffer is renamed to is never renamed again. -/
theorem swapName_rename (hmerged : ∀ p ∈ merged, IsDuplicate graph p.1 p.2)
    (hdup : IsDuplicate graph dup canonical) (hout : dup.name ∉ outputNames) (r : String) :
    swapName dup.name canonical.name (rename outputNames merged r) =
      rename outputNames (merged ++ [(dup, canonical)]) r := by
  rw [rename, rename, find?_append]
  cases hfind : merged.find? fun p => p.1.name = r ∧ r ∉ outputNames with
  | some p =>
    exact if_neg ((hmerged p (mem_of_find?_eq_some hfind)).name_ne hdup)
  | none =>
    by_cases hr : r = dup.name
    · subst hr
      simp [swapName, hout]
    · simp [swapName, hr, Ne.symm hr]

omit [DecidableEq δ] in
theorem rename_append_of_ne (h : dup.name = r → r ∈ outputNames) :
    rename outputNames (merged ++ [(dup, canonical)]) r = rename outputNames merged r := by
  have hnot : ([(dup, canonical)].find? fun p => p.1.name = r ∧ r ∉ outputNames) = none := by
    rw [find?_eq_none]
    intro p hp
    obtain rfl := mem_singleton.1 hp
    simpa using h
  rw [rename, rename, find?_append, hnot, Option.or_none]

/-! ## The loop over the duplicates -/

theorem redirectStep_eq (hop : op.constant? = none)
    (h : redirectStep dup canonical operations op = .ok operations') :
    operations' = patchInnerFn op.name dup.name canonical.name operations := by
  cases op with
  | constant c => cases hop
  | computed name reads =>
    rw [redirectStep, if_neg (by simp)] at h
    exact (Except.ok.inj h).symm
  | other typeName name reads => simp [redirectStep] at h

/-- Every consumer is patched, once. -/
theorem redirect_eq :
    ∀ {operations operations' : List (Operation δ)}, (consumers.map Operation.name).Nodup →
      (∀ op ∈ consumers, op.constant? = none) →
      foldE (redirectStep dup canonical) operations consumers = .ok operations' →
      operations' = operations.map fun op =>
        if op.name ∈ consumers.map Operation.name then
          op.mapReads (swapName dup.name canonical.name) else op := by
  induction consumers with
  | nil =>
    intro operations operations' _ _ h
    simpa using (Except.ok.inj h).symm
  | cons consumer consumers ih =>
    intro operations operations' hnd hconst h
    obtain ⟨patched, hstep, hrun⟩ := bind_eq_ok_iff.1 h
    obtain ⟨hfresh, hnd⟩ := nodup_cons.1 hnd
    rw [ih hnd (fun op hop => hconst op (mem_cons_of_mem _ hop)) hrun,
      redirectStep_eq (hconst consumer mem_cons_self) hstep, patchInnerFn, map_map]
    refine map_congr_left fun op _ => ?_
    rw [Function.comp_apply]
    by_cases hname : op.name = consumer.name
    · rw [if_pos hname, Operation.name_mapReads, hname, if_neg hfresh, if_pos (by simp)]
    · rw [if_neg hname]
      exact if_congr (by simp [hname]) rfl rfl

/-- The operations that stay once the given duplicates are merged, with their reads renamed. -/
def survivors (graph : Graph δ) (merged : List (Constant δ × Constant δ)) : List (Operation δ) :=
  (graph.operations.filter fun op => op.name ∉ merged.map fun p => p.1.name).map
    (Operation.mapReads (rename graph.outputNames merged))

/-- The consumers of a duplicate are the operations that read it. -/
theorem redirectConsumers_survivors (hmerged : ∀ p ∈ merged, IsDuplicate graph p.1 p.2)
    (hdup : IsDuplicate graph dup canonical)
    (hconsumers : dup.name ∉ graph.outputNames →
      consumers = graph.operations.filter fun op => dup.name ∈ op.reads)
    (h : redirectConsumers graph.outputNames consumers dup canonical (survivors graph merged) =
      .ok operations') :
    operations' = (graph.operations.filter fun op => op.name ∉ merged.map fun p => p.1.name).map
      (Operation.mapReads (rename graph.outputNames (merged ++ [(dup, canonical)]))) := by
  rw [redirectConsumers] at h
  by_cases hout : dup.name ∈ graph.outputNames
  · rw [if_pos hout] at h
    rw [← Except.ok.inj h, survivors]
    exact map_congr_left fun op _ => Operation.mapReads_congr fun r _ =>
      (rename_append_of_ne fun hr => hr ▸ hout).symm
  · rw [if_neg hout, hconsumers hout] at h
    have hnd : ((graph.operations.filter fun op => dup.name ∈ op.reads).map
        Operation.name).Nodup := graph.nodup.sublist (filter_sublist.map _)
    have hconst : ∀ op ∈ graph.operations.filter fun op => dup.name ∈ op.reads,
        op.constant? = none := by
      intro op hop
      have hread := of_decide_eq_true (mem_filter.1 hop).2
      cases op with
      | constant c => cases hread
      | computed name reads => rfl
      | other typeName name reads => rfl
    rw [redirect_eq hnd hconst h, survivors, map_map]
    refine map_congr_left fun op hop => ?_
    rw [Function.comp_apply, Operation.name_mapReads]
    by_cases hread : dup.name ∈ op.reads
    · rw [if_pos (mem_map_of_mem (mem_filter.2 ⟨(mem_filter.1 hop).1, by
        simpa using hread⟩)), Operation.mapReads_mapReads]
      exact Operation.mapReads_congr fun r _ => swapName_rename hmerged hdup hout r
    · rw [if_neg]
      · refine Operation.mapReads_congr fun r hr => (rename_append_of_ne fun hdr => ?_).symm
        exact absurd (hdr ▸ hr) hread
      · intro hmem
        obtain ⟨op', hop', hname⟩ := mem_map.1 hmem
        obtain ⟨hop'mem, hread'⟩ := mem_filter.1 hop'
        obtain rfl := Graph.eq_of_name_eq hop'mem (mem_filter.1 hop).1 hname
        exact hread (of_decide_eq_true hread')

theorem erase_map_mapReads {f : String → String} (hdup : dup ∈ constants graph.operations)
    {l : List (Operation δ)} (hl : l.Sublist graph.operations) :
    (l.map (Operation.mapReads f)).erase (.constant dup) =
      (l.filter fun op => op.name ≠ dup.name).map (Operation.mapReads f) := by
  have hnames : (l.map (Operation.mapReads f)).map Operation.name = l.map Operation.name := by
    simp [Function.comp_def]
  have hnd : (l.map (Operation.mapReads f)).Nodup :=
    List.Nodup.of_map Operation.name (hnames ▸ graph.nodup.sublist (hl.map _))
  rw [hnd.erase_eq_filter, filter_map]
  refine congrArg _ (filter_congr fun op hop => ?_)
  by_cases hname : op.name = dup.name
  · obtain rfl := Graph.eq_of_name_eq (hl.subset hop) (mem_constants.1 hdup) hname
    simp [Operation.mapReads, Operation.name]
  · have hne : op.mapReads f ≠ .constant dup := fun h =>
      hname (by rw [← Operation.name_mapReads f op, h]; rfl)
    simp [hname, hne]

theorem dedupStep_survivors (hmerged : ∀ p ∈ merged, IsDuplicate graph p.1 p.2)
    (hp : IsDuplicate graph p.1 p.2) {consumersByName : String → List (Operation δ)}
    (hconsumers : p.1.name ∉ graph.outputNames →
      consumersByName p.1.name = graph.operations.filter fun op => p.1.name ∈ op.reads)
    {st' : State δ} (hst : st.operations = survivors graph merged)
    (h : dedupStep graph.outputNames consumersByName st p = .ok st') :
    st'.operations = survivors graph (merged ++ [p]) := by
  obtain ⟨operations, hredirect, hdrop⟩ := bind_eq_ok_iff.1 h
  rw [hst] at hredirect
  have hoperations := redirectConsumers_survivors hmerged hp hconsumers hredirect
  rw [← Except.ok.inj hdrop, dropConstant, hoperations,
    erase_map_mapReads hp.mem filter_sublist, filter_filter, survivors]
  refine congrArg _ (filter_congr fun op _ => ?_)
  rw [← Bool.decide_and]
  refine decide_eq_decide.2 ?_
  rw [map_append, mem_append, map_singleton, mem_singleton, not_or, and_comm]

omit [DecidableEq δ] in
theorem duplicates_eq_nil {κ : Type} {groups : List (κ × List (Constant δ))}
    (h : (groups.any fun g => 1 < g.2.length) = false) : duplicates groups = [] := by
  rw [duplicates, flatMap_eq_nil_iff]
  intro g hg
  have hlen : g.2.length ≤ 1 := by
    have := any_eq_false.1 h g hg
    simpa using this
  have htail : g.2.tail = [] := eq_nil_of_length_eq_zero (by rw [length_tail]; omega)
  rw [htail, flatMap_nil]

/-- What the pass leaves. -/
theorem dedupAndPromoteConstants_eq (h : dedupAndPromoteConstants graph = .ok st) :
    st.operations = promote
      (survivors graph (duplicates (groupsOf constantKey (constants graph.operations)))) := by
  obtain ⟨st₁, hloop, hst⟩ := bind_eq_ok_iff.1 h
  obtain rfl := Except.ok.inj hst
  refine congrArg promote ?_
  unfold dedup at hloop
  dsimp only at hloop
  have hstart : graph.operations = survivors graph [] := by
    have hid : rename graph.outputNames ([] : List (Constant δ × Constant δ)) = fun r => r := rfl
    have hmap : (Operation.mapReads fun r => r : Operation δ → Operation δ) = id :=
      funext Operation.mapReads_id
    simp [survivors, hid, hmap]
  by_cases hany : ((groupsOf constantKey (constants graph.operations)).any
      fun g => 1 < g.2.length) = true
  · rw [if_pos hany] at hloop
    refine foldE_inv (I := fun merged st => st.operations = survivors graph merged)
      (fun pre p post t t' hsplit hI hstep => ?_) hstart hloop
    have hdup : ∀ q ∈ pre ++ p :: post, IsDuplicate graph q.1 q.2 := fun q hq =>
      mem_duplicates.1 (hsplit ▸ hq)
    refine dedupStep_survivors (fun q hq => hdup q (by simp [hq])) (hdup p (by simp))
      (fun hout => ?_) hI hstep
    have hname : p.1.name ∈ ((duplicates (groupsOf constantKey
        (constants graph.operations))).map fun p => p.1.name).filter
          fun name => name ∉ graph.outputNames := by
      rw [hsplit]
      exact mem_filter.2 ⟨by simp, by simpa using hout⟩
    rw [if_neg (ne_nil_of_mem hname), buildReverseConsumerIndex, if_pos hname]
  · rw [if_neg hany] at hloop
    rw [duplicates_eq_nil (Bool.eq_false_iff.2 hany), ← hstart, ← Except.ok.inj hloop]

omit [DecidableEq δ] in
theorem mem_promote :
    op ∈ promote operations ↔ op ∈ operations := by
  rw [promote]
  split_ifs with hnone
  · rfl
  · cases hop : op.constant? with
    | none => simp [hop]
    | some c => simp [hop]

theorem mem_of_dedup (h : dedupAndPromoteConstants graph = .ok st) {op' : Operation δ} :
    op' ∈ st.operations ↔ ∃ op ∈ graph.operations, Survives graph op.name ∧
      op.mapReads (rename graph.outputNames
        (duplicates (groupsOf constantKey (constants graph.operations)))) = op' := by
  rw [dedupAndPromoteConstants_eq h, mem_promote, survivors, mem_map]
  simp only [mem_filter, decide_eq_true_eq, mem_map, mem_duplicates, not_exists, not_and,
    and_assoc, Prod.forall]
  refine exists_congr fun op => and_congr_right fun _ => and_congr_left fun _ => ?_
  exact forall₃_congr fun _ _ _ => ne_comm

/-! ## What readers and outputs see -/

/-- The buffer is an input or is produced. -/
def Available (graph : Graph δ) (operations : List (Operation δ)) (r : String) : Prop :=
  r ∈ graph.inputs ∨ r ∈ operations.map Operation.name

/-- The buffer is a constant with the given bit pattern, dtype and device. `bits` encodes a value
of a dtype. -/
def Sees (bits : δ → PyNumber → β) (operations : List (Operation δ)) (r : String)
    (seen : β × δ × Device) : Prop :=
  ∃ c ∈ constants operations, c.name = r ∧ seen = (bits c.dtype c.value, c.dtype, c.device)

/-- What was read as `r` is read as `r'` : it is still there, and is the same constant if it was
one. -/
structure Keeps (bits : δ → PyNumber → β) (graph : Graph δ) (operations : List (Operation δ))
    (r r' : String) : Prop where
  available : Available graph graph.operations r → Available graph operations r'
  sees : ∀ seen, Sees bits graph.operations r seen → Sees bits operations r' seen

section Seen

variable {bits : δ → PyNumber → β} {graph : Graph δ} {st : State δ}

variable {c canonical dup : Constant δ}

theorem constant_mem_of_dedup (h : dedupAndPromoteConstants graph = .ok st) :
    c ∈ constants st.operations ↔ c ∈ constants graph.operations ∧ Survives graph c.name := by
  rw [mem_constants, mem_constants, mem_of_dedup h]
  constructor
  · rintro ⟨op, hop, hsurvives, heq⟩
    cases op with
    | constant c' =>
      obtain rfl := Operation.constant.inj heq
      exact ⟨hop, hsurvives⟩
    | computed name reads => cases heq
    | other typeName name reads => cases heq
  · exact fun hc => ⟨.constant c, hc.1, hc.2, rfl⟩

theorem IsDuplicate.canonical_survives (h : dedupAndPromoteConstants graph = .ok st)
    (hdup : IsDuplicate graph dup canonical) :
    canonical ∈ constants st.operations :=
  (constant_mem_of_dedup h).2 ⟨hdup.canonical_mem, fun _ _ hdup' => hdup.name_ne hdup'⟩

theorem IsDuplicate.not_available (h : dedupAndPromoteConstants graph = .ok st)
    (hdup : IsDuplicate graph dup canonical) :
    ¬ Available graph st.operations dup.name := by
  rintro (hin | hname)
  · exact graph.fresh _ (mem_constants.1 hdup.mem) hin
  · obtain ⟨op', hop', hname⟩ := mem_map.1 hname
    obtain ⟨op, -, hsurvives, rfl⟩ := (mem_of_dedup h).1 hop'
    exact hsurvives dup canonical hdup (by simpa using hname)

/-- A name that no duplicate has is kept. -/
theorem keeps_self (h : dedupAndPromoteConstants graph = .ok st) {r : String}
    (hr : Survives graph r) : Keeps bits graph st.operations r r where
  available := by
    rintro (hin | hname)
    · exact .inl hin
    · obtain ⟨op, hop, rfl⟩ := mem_map.1 hname
      exact .inr (mem_map.2 ⟨_, (mem_of_dedup h).2 ⟨op, hop, hr, rfl⟩, by simp⟩)
  sees := by
    rintro seen ⟨c, hc, rfl, rfl⟩
    exact ⟨c, (constant_mem_of_dedup h).2 ⟨hc, hr⟩, rfl, rfl⟩

omit [DecidableEq δ] in
theorem sees_of_mem {operations : List (Operation δ)} (hc : c ∈ constants operations) :
    Sees bits operations c.name (bits c.dtype c.value, c.dtype, c.device) :=
  ⟨c, hc, rfl, rfl⟩

/-- A duplicate is kept under the name of the first of its group when the two have the same bits. -/
theorem IsDuplicate.keeps_iff (h : dedupAndPromoteConstants graph = .ok st)
    (hdup : IsDuplicate graph dup canonical) :
    Keeps bits graph st.operations dup.name canonical.name ↔
      bits dup.dtype dup.value = bits canonical.dtype canonical.value := by
  have hkey := hdup.key_eq
  simp only [constantKey, Prod.mk.injEq] at hkey
  obtain ⟨-, hdtype, hdevice⟩ := hkey
  have hcanonical := hdup.canonical_survives h
  constructor
  · intro hkeeps
    obtain ⟨c, hc, hname, hseen⟩ := hkeeps.sees _ (sees_of_mem hdup.mem)
    obtain rfl : c = canonical :=
      Graph.eq_of_constant_name_eq ((constant_mem_of_dedup h).1 hc).1 hdup.canonical_mem hname
    exact congrArg Prod.fst hseen
  · intro hbits
    refine ⟨fun _ => .inr (mem_map.2 ⟨_, mem_constants.1 hcanonical, rfl⟩), ?_⟩
    rintro seen ⟨c, hc, hname, rfl⟩
    obtain rfl := Graph.eq_of_constant_name_eq hc hdup.mem hname
    exact ⟨canonical, hcanonical, rfl, by rw [hbits, hdtype, hdevice]⟩

variable (bits) in
/-- The pass keeps what every surviving operation reads and what every output is exactly when no
later constant of a group is an output, and each one that is read has the bits of the first. -/
theorem dedupAndPromoteConstants_keeps_iff (h : dedupAndPromoteConstants graph = .ok st) :
    ((∀ op' ∈ st.operations, ∃ op ∈ graph.operations, op.name = op'.name ∧
        List.Forall₂ (Keeps bits graph st.operations) op.reads op'.reads) ∧
      ∀ r ∈ graph.outputNames, Keeps bits graph st.operations r r) ↔
    ∀ dup canonical, IsDuplicate graph dup canonical → dup.name ∉ graph.outputNames ∧
      ((∃ op ∈ graph.operations, dup.name ∈ op.reads) →
        bits dup.dtype dup.value = bits canonical.dtype canonical.value) := by
  have hmerged : ∀ p ∈ duplicates (groupsOf constantKey (constants graph.operations)),
      IsDuplicate graph p.1 p.2 := fun p hp => mem_duplicates.1 hp
  constructor
  · rintro ⟨hreads, houtputs⟩ dup canonical hdup
    have hout : dup.name ∉ graph.outputNames := fun hmem => hdup.not_available h
      ((houtputs _ hmem).available (.inr (mem_map.2 ⟨_, mem_constants.1 hdup.mem, rfl⟩)))
    refine ⟨hout, ?_⟩
    rintro ⟨op, hop, hread⟩
    have hsurvives : Survives graph op.name := by
      intro dup' canonical' hdup' hname
      obtain rfl := Graph.eq_of_name_eq hop (mem_constants.1 hdup'.mem) hname
      cases hread
    obtain ⟨op₀, hop₀, hname, hkeeps⟩ :=
      hreads _ ((mem_of_dedup h).2 ⟨op, hop, hsurvives, rfl⟩)
    obtain rfl := Graph.eq_of_name_eq hop₀ hop (by simpa using hname)
    rw [Operation.reads_mapReads, List.forall₂_map_right_iff, List.forall₂_same] at hkeeps
    have hkeep := hkeeps _ hread
    rw [rename_of_mem hmerged (mem_duplicates.2 hdup) hout] at hkeep
    exact (hdup.keeps_iff h).1 hkeep
  · intro hcond
    refine ⟨fun op' hop' => ?_, fun r hr => keeps_self h fun dup canonical hdup hname =>
      (hcond dup canonical hdup).1 (hname ▸ hr)⟩
    obtain ⟨op, hop, -, rfl⟩ := (mem_of_dedup h).1 hop'
    refine ⟨op, hop, by simp, ?_⟩
    rw [Operation.reads_mapReads, List.forall₂_map_right_iff, List.forall₂_same]
    intro r hr
    by_cases hnot : Survives graph r
    · rw [rename_eq_self fun p hp hname => absurd hname.symm (hnot _ _ (hmerged p hp))]
      exact keeps_self h hnot
    · simp only [Survives, not_forall, not_not] at hnot
      obtain ⟨dup, canonical, hdup, rfl⟩ := hnot
      obtain ⟨hout, hbits⟩ := hcond dup canonical hdup
      rw [rename_of_mem hmerged (mem_duplicates.2 hdup) hout]
      exact (hdup.keeps_iff h).2 (hbits ⟨op, hop, hr⟩)

end Seen

/-- Two ones, the later of them an output. -/
def twoOnes : Graph Unit where
  operations := [.constant ⟨"buf0", .float false 1, (), ⟨"spyre", some 0⟩⟩,
    .constant ⟨"buf1", .float false 1, (), ⟨"spyre", some 0⟩⟩, .computed "buf2" ["arg0", "buf0"]]
  inputs := ["arg0"]
  outputNames := ["buf1", "buf2"]
  nodup := by decide
  fresh := by decide

/-- The output is dropped and nothing produces it. -/
theorem twoOnes_output_dropped : ∃ st, dedupAndPromoteConstants twoOnes = .ok st ∧
    "buf1" ∈ twoOnes.outputNames ∧ Available twoOnes twoOnes.operations "buf1" ∧
    ¬ Available twoOnes st.operations "buf1" := by
  refine ⟨⟨[.constant ⟨"buf0", .float false 1, (), ⟨"spyre", some 0⟩⟩,
    .computed "buf2" ["arg0", "buf0"]], ["buf1"]⟩, by decide +kernel, by decide, ?_, ?_⟩
  · exact .inr (by decide)
  · rintro (hin | hname)
    · exact absurd hin (by decide)
    · exact absurd hname (by decide)

/-- The two zeros of a float dtype, both read. -/
def signedZeros : Graph Unit where
  operations := [.constant ⟨"buf0", .float false 0, (), ⟨"spyre", none⟩⟩,
    .constant ⟨"buf1", .float true 0, (), ⟨"spyre", none⟩⟩, .computed "buf2" ["buf0", "buf1"]]
  inputs := []
  outputNames := ["buf2"]
  nodup := by decide
  fresh := by decide

theorem dedupAndPromoteConstants_keeps_iff_signedZeros :
    ∃ st, dedupAndPromoteConstants signedZeros = .ok st ∧
      ¬ ((∀ op' ∈ st.operations, ∃ op ∈ signedZeros.operations, op.name = op'.name ∧
          List.Forall₂ (Keeps (fun _ value => value) signedZeros st.operations)
            op.reads op'.reads) ∧
        ∀ r ∈ signedZeros.outputNames,
          Keeps (fun _ value => value) signedZeros st.operations r r) := by
  obtain ⟨st, hst⟩ := exists_eq_ok
    (show (dedupAndPromoteConstants signedZeros).isOk = true by decide +kernel)
  refine ⟨st, hst, fun hkeeps => ?_⟩
  have hdup : IsDuplicate signedZeros ⟨"buf1", .float true 0, (), ⟨"spyre", none⟩⟩
      ⟨"buf0", .float false 0, (), ⟨"spyre", none⟩⟩ :=
    ⟨by decide, by decide +kernel, by decide⟩
  have hbits := ((dedupAndPromoteConstants_keeps_iff _ hst).1 hkeeps _ _ hdup).2
    ⟨.computed "buf2" ["buf0", "buf1"], by decide, by decide⟩
  exact absurd hbits (by decide)

end Pass

end DedupConstants

end TorchSpyre
