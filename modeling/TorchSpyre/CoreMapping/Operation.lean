import Mathlib
import TorchSpyre.Checked
import TorchSpyre.Choices
import TorchSpyre.Contiguous
import TorchSpyre.Radix

/-!
# The cores of an operation

`derive_operation_mapping` in `core_mapping.py` gives every core of an operation one slice of each
of its loops. A slice is an expression in `core_id`. Loops are taken in the order of the iteration
space, with one loop possibly first, and the number of a core is read as digits, one for each loop.
Tensors in scratchpad memory may already belong to cores. If the digits do not agree with them, the
loops they own are moved outside : they number groups of cores, in some order, and the other loops
number the cores of a group.

Every mapping is the digits of the number, with the loops in some order (`deriveCoreMapping_reads`).
So it is a bijection between cores and tuples of slices, and a mapping that is returned has been
compared with every owner (`deriveOperationMapping_bijOn`).

Owners are arbitrary expressions and kept as their values. A value that is no integer is `none`.
-/

open List

namespace TorchSpyre

open Checked

namespace CoreMapping

/-! ## Expressions in `core_id` -/

/-- An expression in the core's number. -/
inductive Slot where
  | zero
  | coreId
  | floorDiv (e : Slot) (divisor : ℕ)
  | mod (e : Slot) (modulus : ℕ)
deriving DecidableEq

namespace Slot

/-- The value of a slot on a core. -/
def eval (core : ℕ) : Slot → ℕ
  | .zero => 0
  | .coreId => core
  | .floorDiv e divisor => e.eval core / divisor
  | .mod e modulus => e.eval core % modulus

/-- `expression.subs(core_id, new)`. -/
def subs : Slot → Slot → Slot
  | .zero, _ => .zero
  | .coreId, new => new
  | .floorDiv e divisor, new => .floorDiv (e.subs new) divisor
  | .mod e modulus, new => .mod (e.subs new) modulus

theorem eval_subs (new : Slot) (core : ℕ) :
    ∀ e : Slot, (e.subs new).eval core = e.eval (new.eval core)
  | .zero => rfl
  | .coreId => rfl
  | .floorDiv e divisor => by rw [subs, eval, eval, eval_subs new core e]
  | .mod e modulus => by rw [subs, eval, eval, eval_subs new core e]

end Slot

/-- The slice of every loop, by the name of the loop. -/
abbrev Mapping := List (String × Slot)

/-- The `ValueError`s, and the `KeyError` for an owner that is missing. -/
inductive MappingError where
  | countDiffers (dims splits : ℕ)
  | notMultiple (logical numCores : ℕ)
  | productDiffers (product numCores : ℕ)
  | unknownGrouped (dims : List String)
  | groupedSplit (dim : String) (split : ℕ)
  | groupedNotDividing
  | groupsNotFilled
  | differentDomains (division operation : ℤ)
  | notInOperation (dim : String)
  | splitDiffers (dim : String) (split : ℤ) (operation : Option ℕ)
  | missingOwner (dim : String)
  | disagree (dim : String)
  | tooMany (count : ℕ)
  | noMapping
deriving DecidableEq

/-! ## Mappings from splits -/

/-- The order of the dimensions, with one of them first if it is split. -/
def dimOrder (loops : List (String × ℕ)) : Option ℕ → List (String × ℕ)
  | none => loops
  | some i =>
    match loops[i]? with
    | some loop => if 1 < loop.2 then loop :: loops.eraseIdx i else loops
    | none => loops

/-- The coordinate of a dimension. -/
def coordinate (stride split : ℕ) : Slot :=
  if split = 1 then .zero
  else if stride = 1 then .mod .coreId split
  else .mod (.floorDiv .coreId stride) split

/-- The loop of `core_to_slice_mapping`. -/
def sliceLoop : List (String × ℕ) → ℕ → Mapping
  | [], _ => []
  | loop :: rest, stride =>
    (loop.1, coordinate stride loop.2) :: sliceLoop rest (stride * loop.2)

/-- `core_to_slice_mapping`. -/
def coreToSliceMapping (dims : List String) (splits : List ℕ) (numCores : ℕ)
    (contiguousDim : Option ℕ) : Except MappingError Mapping := do
  guardE (dims.length = splits.length) (.countDiffers dims.length splits.length)
  guardE (splits.prod ≤ numCores ∧ numCores % splits.prod = 0) (.notMultiple splits.prod numCores)
  return sliceLoop (dimOrder (dims.zip splits) contiguousDim) 1

/-- `derive_core_mapping`. Dimensions in `groupedSplits` number groups of cores. -/
def deriveCoreMapping (dims : List String) (splits : List ℕ) (numCores : ℕ)
    (contiguousDim : Option String) (groupedSplits : List (String × ℕ)) :
    Except MappingError Mapping := do
  guardE (dims.length = splits.length) (.countDiffers dims.length splits.length)
  guardE (splits.prod = numCores) (.productDiffers splits.prod numCores)
  let groupedDims := groupedSplits.map Prod.fst
  let unknownDims := groupedDims.filter (· ∉ dims)
  guardE (unknownDims = []) (.unknownGrouped unknownDims)
  checkAll (fun g => guardE ((dims.zip splits).lookup g.1 = some g.2) (.groupedSplit g.1 g.2))
    groupedSplits
  if groupedSplits = [] then
    coreToSliceMapping dims splits numCores (contiguousDim.bind dims.idxOf?)
  else
    let localSplits := (dims.zip splits).filter fun p => p.1 ∉ groupedDims
    let localDims := localSplits.map Prod.fst
    let ownerCount := (groupedSplits.map Prod.snd).prod
    guardE (0 < ownerCount ∧ numCores % ownerCount = 0) .groupedNotDividing
    let groupSize := numCores / ownerCount
    guardE ((localSplits.map Prod.snd).prod = groupSize) .groupsNotFilled
    let ownerMapping ← coreToSliceMapping groupedDims (groupedSplits.map Prod.snd) ownerCount none
    let localMapping ← coreToSliceMapping localDims (localSplits.map Prod.snd) groupSize
      (contiguousDim.bind localDims.idxOf?)
    return ownerMapping.map (Prod.map id fun e => e.subs (.floorDiv .coreId groupSize)) ++
      localMapping.map (Prod.map id fun e => e.subs (.mod .coreId groupSize))

/-! ## Owners -/

/-- The values of an owner expression, where they are integers. -/
abbrev Owner := ℕ → Option ℤ

/-- The work division of a tensor. -/
structure TensorWorkDivision where
  workSlices : List (String × ℤ)
  coreIdToWorkSlice : String → Option Owner
  numCores : Option ℤ

/-- `physical_core_count`. -/
def TensorWorkDivision.physicalCoreCount (division : TensorWorkDivision) : ℤ :=
  division.numCores.getD (division.workSlices.map Prod.snd).prod

/-- The values of the expressions of one dimension agree at a core. -/
def sameSlot : Option ℤ → Option ℤ → Bool
  | some left, some right => left = right
  | _, _ => false

/-- `core_mappings_equal`. -/
def coreMappingsEqual (left right : List (String × Owner)) (numCores : ℕ) : Bool :=
  let sorted (m : List (String × Owner)) := m.insertionSort fun a b => a.1 ≤ b.1
  decide (0 < numCores) && (left.map Prod.fst).isPerm (right.map Prod.fst) &&
    ((sorted left).zip (sorted right)).all fun p =>
      (List.range numCores).all fun core => sameSlot (p.1.2 core) (p.2.2 core)

/-- The loops of an operation, each with its split. -/
structure IterationSpace where
  loops : List (String × ℕ)
  nodup : (loops.map Prod.fst).Nodup
  pos : ∀ loop ∈ loops, 0 < loop.2

namespace IterationSpace

/-- The names of the loops. -/
def dims (space : IterationSpace) : List String :=
  space.loops.map Prod.fst

/-- The splits of the loops. -/
def splits (space : IterationSpace) : List ℕ :=
  space.loops.map Prod.snd

/-- The cores that the splits take. -/
def numCores (space : IterationSpace) : ℕ :=
  space.splits.prod

theorem loops_eq_zip (space : IterationSpace) : space.loops = space.dims.zip space.splits :=
  zip_of_prod rfl rfl

end IterationSpace

/-- `constrained.setdefault(dim, expression)`, and the value for `dim` after it. -/
def setDefault (constrained : List (String × Owner)) (dim : String) (expression : Owner) :
    List (String × Owner) × Owner :=
  match constrained.lookup dim with
  | some previous => (constrained, previous)
  | none => (constrained ++ [(dim, expression)], expression)

section Derive

variable (space : IterationSpace)

/-- One split dimension of a tensor. -/
def constrainDim (division : TensorWorkDivision) (constrained : List (String × Owner))
    (slice : String × ℤ) : Except MappingError (List (String × Owner)) :=
  if slice.2 ≤ 1 then .ok constrained
  else do
    guardE (slice.1 ∈ space.dims) (.notInOperation slice.1)
    let split := space.loops.lookup slice.1
    guardE (split.map Nat.cast = some slice.2) (.splitDiffers slice.1 slice.2 split)
    match division.coreIdToWorkSlice slice.1 with
    | none => .error (.missingOwner slice.1)
    | some expression =>
      let r := setDefault constrained slice.1 expression
      guardE (coreMappingsEqual [(slice.1, r.2)] [(slice.1, expression)] space.numCores = true)
        (.disagree slice.1)
      return r.1

/-- One tensor. -/
def constrain (constrained : List (String × Owner)) :
    Option TensorWorkDivision → Except MappingError (List (String × Owner))
  | none => .ok constrained
  | some division => do
    guardE (division.physicalCoreCount = space.numCores)
      (.differentDomains division.physicalCoreCount space.numCores)
    foldE (constrainDim space division) constrained division.workSlices

/-- The values of an expression. -/
def Slot.owner (e : Slot) : Owner := fun core => some (e.eval core : ℕ)

/-- The mapping agrees with the owners of every dimension that has one. -/
def satisfies (m : Mapping) (constrained : List (String × Owner)) : Bool :=
  constrained.all fun c =>
    match m.lookup c.1 with
    | some e => coreMappingsEqual [(c.1, e.owner)] [c] space.numCores
    | none => false

/-- The search over the orders of the owned dimensions. -/
def searchOrders (contiguousDim : Option String) (constrained : List (String × Owner)) :
    List (List String) → Except MappingError Mapping
  | [] => .error .noMapping
  | order :: rest => do
    let grouped := order.filterMap fun dim => (space.loops.lookup dim).map fun split => (dim, split)
    let candidate ← deriveCoreMapping space.dims space.splits space.numCores contiguousDim grouped
    if satisfies space candidate constrained then return candidate
    else searchOrders contiguousDim constrained rest

/-- `_MAX_OWNER_PERMUTATION_DIMS`. -/
def maxOwnerPermutationDims : ℕ := 5

/-- `derive_operation_mapping`. -/
def deriveOperationMapping (divisions : List (Option TensorWorkDivision))
    (contiguousDim : Option String) : Except MappingError Mapping := do
  let constrained ← foldE (constrain space) [] divisions
  let default ← deriveCoreMapping space.dims space.splits space.numCores contiguousDim []
  if constrained.isEmpty then return default
  else if satisfies space default constrained then return default
  else do
    guardE (constrained.length ≤ maxOwnerPermutationDims) (.tooMany constrained.length)
    searchOrders space contiguousDim constrained
      (Choices.permutations ((constrained.map Prod.fst).insertionSort (· ≤ ·)))

end Derive

/-! ## Mappings are digits -/

/-- The slices of a core. -/
def values (m : Mapping) (core : ℕ) : List (String × ℕ) :=
  m.map fun e => (e.1, e.2.eval core)

/-- The slices of a core are the digits of its number, with the loops in an order. -/
def Reads (order : List (String × ℕ)) (m : Mapping) : Prop :=
  ∀ core, (values m core).Perm
    ((order.map Prod.fst).zip (Radix.digits (order.map Prod.snd) core))

theorem eval_coordinate (stride split core : ℕ) :
    (coordinate stride split).eval core = core / stride % split := by
  unfold coordinate
  split_ifs with hsplit hstride
  · rw [hsplit, Nat.mod_one]
    rfl
  · rw [hstride, Nat.div_one]
    rfl
  · rfl

theorem values_sliceLoop (core : ℕ) :
    ∀ (order : List (String × ℕ)) (stride : ℕ), values (sliceLoop order stride) core =
      (order.map Prod.fst).zip (Radix.digits (order.map Prod.snd) (core / stride))
  | [], _ => rfl
  | loop :: rest, stride => by
    have hrest := values_sliceLoop core rest (stride * loop.2)
    rw [sliceLoop, values, map_cons, eval_coordinate, map_cons, map_cons,
      Radix.digits, zip_cons_cons, Nat.div_div_eq_div_mul, ← hrest]
    rfl

theorem perm_dimOrder (loops : List (String × ℕ)) (contiguousDim : Option ℕ) :
    (dimOrder loops contiguousDim).Perm loops := by
  cases contiguousDim with
  | none => exact .refl _
  | some i =>
    rw [dimOrder]
    cases hloop : loops[i]? with
    | none => exact .refl _
    | some loop =>
      obtain ⟨hi, rfl⟩ := List.getElem?_eq_some_iff.mp hloop
      dsimp only
      split_ifs with hsplit
      · exact getElem_cons_eraseIdx_perm hi
      · exact .refl _

variable {dims : List String} {splits : List ℕ} {m : Mapping} {numCores : ℕ}

theorem coreToSliceMapping_eq_ok {contiguousDim : Option ℕ}
    (h : coreToSliceMapping dims splits numCores contiguousDim = .ok m) :
    ∃ order : List (String × ℕ), order.Perm (dims.zip splits) ∧ ∀ core, values m core =
      (order.map Prod.fst).zip (Radix.digits (order.map Prod.snd) core) := by
  obtain ⟨-, -, h⟩ := bind_eq_ok_iff.mp h
  obtain ⟨-, -, h⟩ := bind_eq_ok_iff.mp h
  obtain rfl := Except.ok.inj h
  refine ⟨_, perm_dimOrder _ contiguousDim, fun core => ?_⟩
  rw [values_sliceLoop, Nat.div_one]

theorem values_append (m n : Mapping) (core : ℕ) :
    values (m ++ n) core = values m core ++ values n core := by
  rw [values, map_append]
  rfl

theorem values_map_subs (m : Mapping) (new : Slot) (core : ℕ) :
    values (m.map (Prod.map id fun e => e.subs new)) core = values m (new.eval core) := by
  rw [values, map_map, values]
  refine map_congr_left fun e _ => ?_
  simp [Slot.eval_subs]

/-- The grouped dimensions and the others are all dimensions. -/
theorem perm_grouped {loops grouped : List (String × ℕ)} (hloops : (loops.map Prod.fst).Nodup)
    (hgrouped : (grouped.map Prod.fst).Nodup) (h : ∀ g ∈ grouped, loops.lookup g.1 = some g.2) :
    ((loops.filter fun p => p.1 ∉ grouped.map Prod.fst) ++ grouped).Perm loops := by
  have hinside : (loops.filter fun p => !decide (p.1 ∉ grouped.map Prod.fst)).Perm grouped := by
    refine (perm_ext_iff_of_nodup ((hloops.of_map Prod.fst).filter _)
      (hgrouped.of_map Prod.fst)).mpr fun p => ?_
    rw [mem_filter]
    constructor
    · rintro ⟨hp, hkey⟩
      obtain ⟨g, hg, hgp⟩ := mem_map.mp (by simpa using hkey : p.1 ∈ grouped.map Prod.fst)
      have hsplit := Lists.lookup_eq_of_mem hloops hp
      rw [← hgp, h g hg] at hsplit
      rwa [← Prod.ext hgp (Option.some.inj hsplit)]
    · intro hp
      exact ⟨Lists.mem_of_lookup (h p hp), by simpa using ⟨p.2, hp⟩⟩
  exact (hinside.symm.append_left _).trans (filter_append_perm _ loops)

/-- `derive_core_mapping` returns the digits of the number of a core. -/
theorem deriveCoreMapping_reads {contiguousDim : Option String} {grouped : List (String × ℕ)}
    (hdims : dims.Nodup) (hgrouped : (grouped.map Prod.fst).Nodup)
    (h : deriveCoreMapping dims splits numCores contiguousDim grouped = .ok m) :
    ∃ order : List (String × ℕ), order.Perm (dims.zip splits) ∧ Reads order m := by
  obtain ⟨_, hlength, h⟩ := bind_eq_ok_iff.mp h
  obtain ⟨-, -, h⟩ := bind_eq_ok_iff.mp h
  obtain ⟨-, -, h⟩ := bind_eq_ok_iff.mp h
  obtain ⟨_, hlookup, h⟩ := bind_eq_ok_iff.mp h
  rw [guardE_eq_ok_iff] at hlength
  simp only [checkAll_eq_ok_iff, guardE_eq_ok_iff] at hlookup
  have hloops : ((dims.zip splits).map Prod.fst).Nodup := by
    rwa [map_fst_zip hlength.le]
  split_ifs at h with hnil
  · obtain ⟨order, hperm, hvalues⟩ := coreToSliceMapping_eq_ok h
    exact ⟨order, hperm, fun core => .of_eq (hvalues core)⟩
  · obtain ⟨-, -, h⟩ := bind_eq_ok_iff.mp h
    obtain ⟨_, hfilled, h⟩ := bind_eq_ok_iff.mp h
    obtain ⟨owners, howners, h⟩ := bind_eq_ok_iff.mp h
    obtain ⟨locals, hlocals, h⟩ := bind_eq_ok_iff.mp h
    obtain rfl := Except.ok.inj h
    rw [guardE_eq_ok_iff] at hfilled
    obtain ⟨outer, houter, hownerValues⟩ := coreToSliceMapping_eq_ok howners
    obtain ⟨inner, hinner, hlocalValues⟩ := coreToSliceMapping_eq_ok hlocals
    rw [← zip_of_prod rfl rfl] at houter hinner
    -- The inner loops are the low digits.
    refine ⟨inner ++ outer, (hinner.append houter).trans (perm_grouped hloops hgrouped hlookup),
      fun core => ?_⟩
    have hsize : (inner.map Prod.snd).prod = numCores / (grouped.map Prod.snd).prod := by
      rw [(hinner.map Prod.snd).prod_eq, hfilled]
    rw [values_append, values_map_subs, values_map_subs, hownerValues, hlocalValues, Slot.eval,
      Slot.eval, Slot.eval, ← hsize, Radix.digits_mod_prod, map_append, map_append,
      Radix.digits_append, zip_append (by simp [Radix.length_digits])]
    exact perm_append_comm

/-! ## Cores and tuples of slices -/

/-- The slice of a loop on a core. -/
def slot (m : Mapping) (dim : String) (core : ℕ) : ℕ :=
  ((m.lookup dim).getD .zero).eval core

/-- The slices of the loops on a core. -/
def slots (m : Mapping) (dims : List String) (core : ℕ) : List ℕ :=
  dims.map fun dim => slot m dim core

theorem map_eq_of_zip {f : String → ℕ} : ∀ {dims : List String} {t : List ℕ},
    dims.length = t.length → (∀ p ∈ dims.zip t, f p.1 = p.2) → dims.map f = t
  | [], [], _, _ => rfl
  | d :: dims, x :: t, hlength, h => by
    rw [map_cons, h (d, x) (by simp), map_eq_of_zip (by simpa using hlength)
      fun p hp => h p (mem_cons_of_mem _ hp)]

section Reads

variable {order : List (String × ℕ)} {m : Mapping}

theorem Reads.keys_perm (h : Reads order m) : (m.map Prod.fst).Perm (order.map Prod.fst) := by
  have hperm := (h 0).map Prod.fst
  rwa [values, map_map, map_fst_zip (by simp [Radix.length_digits])] at hperm

/-- In the order of the digits the slices are the digits. -/
theorem Reads.slots_eq (h : Reads order m) (hnd : (order.map Prod.fst).Nodup) (core : ℕ) :
    slots m (order.map Prod.fst) core = Radix.digits (order.map Prod.snd) core := by
  refine map_eq_of_zip (by simp [Radix.length_digits]) fun p hp => ?_
  obtain ⟨e, he, rfl⟩ := mem_map.mp ((h core).mem_iff.mpr hp)
  rw [slot, Lists.lookup_eq_of_mem (h.keys_perm.nodup_iff.mpr hnd) he, Option.getD_some]

/-- Cores are tuples of slices. -/
theorem Reads.bijOn (h : Reads order m) {space : IterationSpace} (hperm : order.Perm space.loops) :
    Set.BijOn (slots m space.dims) (Set.Iio space.numCores)
      {t | List.Forall₂ (· < ·) t space.splits} := by
  have hdims : (order.map Prod.fst).Perm space.dims := hperm.map Prod.fst
  have hprod : (order.map Prod.snd).prod = space.numCores := (hperm.map Prod.snd).prod_eq
  have hnd : (order.map Prod.fst).Nodup := hdims.nodup_iff.mpr space.nodup
  have hpos : ∀ split ∈ order.map Prod.snd, 0 < split := by
    intro split hsplit
    obtain ⟨loop, hloop, rfl⟩ := mem_map.mp hsplit
    exact space.pos loop (hperm.mem_iff.mp hloop)
  obtain ⟨hmaps, hinj, hsurj⟩ := Radix.bijOn_digits hpos
  rw [hprod] at hmaps hinj hsurj
  have hlt_iff : ∀ (f : String → ℕ) (loops : List (String × ℕ)),
      List.Forall₂ (· < ·) ((loops.map Prod.fst).map f) (loops.map Prod.snd) ↔
        ∀ loop ∈ loops, f loop.1 < loop.2 := by
    intro f loops
    rw [map_map, List.forall₂_map_left_iff, List.forall₂_map_right_iff, List.forall₂_same]
    rfl
  refine ⟨fun core hcore => ?_, fun core hcore core' hcore' heq => ?_, fun t ht => ?_⟩
  · have hlt := hmaps hcore
    rw [Set.mem_ofPred_eq, ← h.slots_eq hnd, slots, hlt_iff] at hlt
    refine (hlt_iff _ space.loops).mpr fun loop hloop => hlt loop (hperm.mem_iff.mpr hloop)
  · refine hinj hcore hcore' ?_
    rw [← h.slots_eq hnd, ← h.slots_eq hnd]
    refine map_congr_left fun dim hdim => ?_
    exact map_inj_left.mp heq dim (hdims.mem_iff.mp hdim)
  · have hlength : space.dims.length = t.length := by
      rw [List.Forall₂.length_eq ht, IterationSpace.dims, IterationSpace.splits, length_map,
        length_map]
    -- The tuple as a function of the loops.
    obtain ⟨g, rfl⟩ : ∃ g : String → ℕ, space.dims.map g = t := by
      refine ⟨fun dim => ((space.dims.zip t).lookup dim).getD 0,
        map_eq_of_zip hlength fun p hp => ?_⟩
      have hkeys : ((space.dims.zip t).map Prod.fst).Nodup := by
        rw [map_fst_zip hlength.le]
        exact space.nodup
      rw [Lists.lookup_eq_of_mem hkeys hp, Option.getD_some]
    have hlt := (hlt_iff g space.loops).mp ht
    obtain ⟨core, hcore, heq⟩ := hsurj ((hlt_iff g order).mpr fun loop hloop =>
      hlt loop (hperm.mem_iff.mp hloop))
    refine ⟨core, hcore, map_congr_left fun dim hdim => ?_⟩
    rw [← h.slots_eq hnd] at heq
    exact map_inj_left.mp heq dim (hdims.mem_iff.mpr hdim)

end Reads

/-! ## Owners are kept -/

section Owners

variable {space : IterationSpace}

/-- Two owners are integers and agree on every core. -/
def Agree (left right : Owner) (numCores : ℕ) : Prop :=
  ∀ core < numCores, ∃ z, left core = some z ∧ right core = some z

theorem agree_of_coreMappingsEqual {dim : String} {left right : Owner} {numCores : ℕ}
    (h : coreMappingsEqual [(dim, left)] [(dim, right)] numCores = true) :
    Agree left right numCores := by
  simp only [coreMappingsEqual, insertionSort_cons, insertionSort_nil,
    orderedInsert_nil, zip_cons_cons, zip_nil_right, all_cons, all_nil,
    Bool.and_true, Bool.and_eq_true, all_eq_true, mem_range] at h
  intro core hcore
  have hsame := h.2 core hcore
  cases hleft : left core with
  | none => simp [hleft, sameSlot] at hsame
  | some z =>
    cases hright : right core with
    | none => simp [hleft, hright, sameSlot] at hsame
    | some w =>
      rw [hleft, hright] at hsame
      exact ⟨z, rfl, by rw [of_decide_eq_true hsame]⟩

/-- The owner of a split dimension of a tensor is among the owners that are compared. -/
def Owned (space : IterationSpace) (division : TensorWorkDivision) (slice : String × ℤ)
    (constrained : List (String × Owner)) : Prop :=
  ∃ owner, division.coreIdToWorkSlice slice.1 = some owner ∧
    ∃ c ∈ constrained, c.1 = slice.1 ∧ Agree c.2 owner space.numCores

variable {divisions : List (Option TensorWorkDivision)}
  {constrained constrained' : List (String × Owner)} {m : Mapping} {contiguousDim : Option String}
  {slice : String × ℤ} {division : TensorWorkDivision}

theorem Owned.mono (h : Owned space division slice constrained)
    (hsub : constrained ⊆ constrained') : Owned space division slice constrained' := by
  obtain ⟨owner, howner, c, hc, hdim, hagree⟩ := h
  exact ⟨owner, howner, c, hsub hc, hdim, hagree⟩

theorem setDefault_spec (constrained : List (String × Owner)) (dim : String) (expression : Owner)
    (hnd : (constrained.map Prod.fst).Nodup) :
    constrained ⊆ (setDefault constrained dim expression).1 ∧
      ((setDefault constrained dim expression).1.map Prod.fst).Nodup ∧
        (dim, (setDefault constrained dim expression).2) ∈
          (setDefault constrained dim expression).1 := by
  unfold setDefault
  cases hlookup : constrained.lookup dim with
  | some previous => exact ⟨List.Subset.refl _, hnd, Lists.mem_of_lookup hlookup⟩
  | none =>
    refine ⟨subset_append_left _ _, ?_, by simp⟩
    rw [map_append, nodup_append]
    refine ⟨hnd, nodup_singleton _, fun key hkey other hother heq => ?_⟩
    obtain ⟨c, hc, rfl⟩ := mem_map.mp hkey
    have hne := lookup_eq_none_iff.mp hlookup c hc
    rw [heq, mem_singleton.mp hother] at hne
    simp at hne

theorem constrainDim_spec (h : constrainDim space division constrained slice = .ok constrained')
    (hnd : (constrained.map Prod.fst).Nodup) :
    constrained ⊆ constrained' ∧ (constrained'.map Prod.fst).Nodup ∧
      (1 < slice.2 → Owned space division slice constrained') := by
  unfold constrainDim at h
  split_ifs at h with hsplit
  · obtain rfl := Except.ok.inj h
    exact ⟨List.Subset.refl _, hnd, fun hlt => absurd hlt (not_lt.mpr hsplit)⟩
  · obtain ⟨-, -, h⟩ := bind_eq_ok_iff.mp h
    obtain ⟨-, -, h⟩ := bind_eq_ok_iff.mp h
    cases howner : division.coreIdToWorkSlice slice.1 with
    | none => rw [howner] at h; exact nomatch h
    | some expression =>
      rw [howner] at h
      obtain ⟨_, hequal, h⟩ := bind_eq_ok_iff.mp h
      obtain rfl := Except.ok.inj h
      rw [guardE_eq_ok_iff] at hequal
      obtain ⟨hsub, hnd, hmem⟩ := setDefault_spec constrained slice.1 expression hnd
      exact ⟨hsub, hnd, fun _ => ⟨expression, howner, _, hmem, rfl,
        agree_of_coreMappingsEqual hequal⟩⟩

theorem constrain_spec {division : Option TensorWorkDivision}
    (h : constrain space constrained division = .ok constrained')
    (hnd : (constrained.map Prod.fst).Nodup) :
    constrained ⊆ constrained' ∧ (constrained'.map Prod.fst).Nodup ∧
      ∀ d, division = some d → ∀ slice ∈ d.workSlices, 1 < slice.2 →
        Owned space d slice constrained' := by
  cases division with
  | none =>
    obtain rfl := Except.ok.inj h
    exact ⟨List.Subset.refl _, hnd, fun d hd => nomatch hd⟩
  | some d =>
    obtain ⟨-, -, h⟩ := bind_eq_ok_iff.mp h
    have hrun := foldE_inv (I := fun done c => constrained ⊆ c ∧
        (c.map Prod.fst).Nodup ∧ ∀ slice ∈ done, 1 < slice.2 → Owned space d slice c)
      (fun pre slice post c c' _ hI hstep => ?_) ⟨List.Subset.refl _, hnd, by simp⟩ h
    · refine ⟨hrun.1, hrun.2.1, fun d' hd' => ?_⟩
      obtain rfl := Option.some.inj hd'
      exact hrun.2.2
    · obtain ⟨hsub, hnd, howned⟩ := constrainDim_spec hstep hI.2.1
      refine ⟨List.Subset.trans hI.1 hsub, hnd, fun other hother hlt => ?_⟩
      rcases mem_append.mp hother with hother | hother
      · exact (hI.2.2 other hother hlt).mono hsub
      · obtain rfl := mem_singleton.mp hother
        exact howned hlt

/-- Every owner of every tensor is among those that are compared. -/
theorem owned_of_constrain
    (h : foldE (constrain space) [] divisions = .ok constrained) :
    (constrained.map Prod.fst).Nodup ∧ ∀ d, some d ∈ divisions → ∀ slice ∈ d.workSlices,
      1 < slice.2 → Owned space d slice constrained := by
  refine foldE_inv (I := fun done c => (c.map Prod.fst).Nodup ∧ ∀ d, some d ∈ done →
      ∀ slice ∈ d.workSlices, 1 < slice.2 → Owned space d slice c)
    (fun pre division post c c' _ hI hstep => ?_) ⟨nodup_nil, by simp⟩ h
  obtain ⟨hsub, hnd, howned⟩ := constrain_spec hstep hI.1
  refine ⟨hnd, fun d hd slice hslice hlt => ?_⟩
  rcases mem_append.mp hd with hd | hd
  · exact (hI.2 d hd slice hslice hlt).mono hsub
  · exact howned d (mem_singleton.mp hd).symm slice hslice hlt

theorem agree_of_satisfies (h : satisfies space m constrained = true) {c : String × Owner}
    (hc : c ∈ constrained) :
    Agree (fun core => some (slot m c.1 core : ℤ)) c.2 space.numCores := by
  have hall := all_eq_true.mp h c hc
  cases hlookup : m.lookup c.1 with
  | none => simp [hlookup] at hall
  | some e =>
    rw [hlookup] at hall
    have hslot : (fun core => some (slot m c.1 core : ℤ)) = e.owner := by
      funext core
      rw [slot, hlookup, Option.getD_some]
      rfl
    rw [hslot]
    exact agree_of_coreMappingsEqual hall

theorem sublist_grouped (loops : List (String × ℕ)) :
    ∀ order : List String, ((order.filterMap fun dim =>
      (loops.lookup dim).map fun split => (dim, split)).map Prod.fst).Sublist order
  | [] => .slnil
  | dim :: order => by
    cases hlookup : loops.lookup dim with
    | none =>
      rw [filterMap_cons_none (by rw [hlookup]; rfl)]
      exact (sublist_grouped loops order).cons dim
    | some split =>
      rw [filterMap_cons_some (by rw [hlookup]; rfl), map_cons]
      exact (sublist_grouped loops order).cons_cons dim

/-- A mapping found by the search is a candidate that agrees with the owners. -/
theorem searchOrders_eq_ok {orders : List (List String)} (hnd : ∀ order ∈ orders, order.Nodup)
    (h : searchOrders space contiguousDim constrained orders = .ok m) :
    (∃ grouped, (grouped.map Prod.fst).Nodup ∧ deriveCoreMapping space.dims space.splits
      space.numCores contiguousDim grouped = .ok m) ∧ satisfies space m constrained = true := by
  induction orders with
  | nil => exact nomatch h
  | cons order rest ih =>
    obtain ⟨candidate, hcandidate, h⟩ := bind_eq_ok_iff.mp h
    split_ifs at h with hsat
    · obtain rfl := Except.ok.inj h
      exact ⟨⟨_, (hnd order mem_cons_self).sublist (sublist_grouped _ order), hcandidate⟩, hsat⟩
    · exact ih (fun other hother => hnd other (mem_cons_of_mem _ hother)) h

/-- A mapping that is returned comes from `derive_core_mapping` and agrees with the owners. -/
theorem deriveOperationMapping_eq_ok
    (h : deriveOperationMapping space divisions contiguousDim = .ok m) :
    (∃ grouped, (grouped.map Prod.fst).Nodup ∧ deriveCoreMapping space.dims space.splits
      space.numCores contiguousDim grouped = .ok m) ∧
      ∃ constrained, foldE (constrain space) [] divisions = .ok constrained ∧
        satisfies space m constrained = true := by
  obtain ⟨constrained, hconstrained, h⟩ := bind_eq_ok_iff.mp h
  obtain ⟨default, hdefault, h⟩ := bind_eq_ok_iff.mp h
  split_ifs at h with hempty hsat
  · obtain rfl := Except.ok.inj h
    refine ⟨⟨[], nodup_nil, hdefault⟩, constrained, hconstrained, ?_⟩
    rw [List.isEmpty_iff.mp hempty]
    rfl
  · obtain rfl := Except.ok.inj h
    exact ⟨⟨[], nodup_nil, hdefault⟩, constrained, hconstrained, hsat⟩
  · obtain ⟨-, -, h⟩ := bind_eq_ok_iff.mp h
    have hnd := (owned_of_constrain hconstrained).1
    have hfound := searchOrders_eq_ok (fun order horder => ?_) h
    · exact ⟨hfound.1, constrained, hconstrained, hfound.2⟩
    · exact (Choices.perm_of_mem_permutations horder).nodup_iff.mpr
        ((perm_insertionSort _ _).nodup_iff.mpr hnd)

/-- A mapping that is returned gives every tuple of slices to one core, and every split dimension
of a tensor the slices of its owner. -/
theorem deriveOperationMapping_bijOn (space : IterationSpace)
    (divisions : List (Option TensorWorkDivision)) (contiguousDim : Option String) (m : Mapping)
    (h : deriveOperationMapping space divisions contiguousDim = .ok m) :
    (m.map Prod.fst).Perm space.dims ∧
      Set.BijOn (slots m space.dims) (Set.Iio space.numCores)
        {t | List.Forall₂ (· < ·) t space.splits} ∧
      ∀ division, some division ∈ divisions → ∀ slice ∈ division.workSlices, 1 < slice.2 →
        ∃ owner, division.coreIdToWorkSlice slice.1 = some owner ∧
          ∀ core < space.numCores, owner core = some (slot m slice.1 core : ℤ) := by
  obtain ⟨⟨grouped, hgrouped, hderive⟩, constrained, hconstrained, hsat⟩ :=
    deriveOperationMapping_eq_ok h
  have hnd : space.dims.Nodup := space.nodup
  obtain ⟨order, hperm, hreads⟩ := deriveCoreMapping_reads hnd hgrouped hderive
  rw [← space.loops_eq_zip] at hperm
  refine ⟨hreads.keys_perm.trans (hperm.map Prod.fst), hreads.bijOn hperm,
    fun division hdivision slice hslice hlt => ?_⟩
  obtain ⟨owner, howner, c, hc, hdim, hagree⟩ :=
    (owned_of_constrain hconstrained).2 division hdivision slice hslice hlt
  refine ⟨owner, howner, fun core hcore => ?_⟩
  obtain ⟨z, hz, hz'⟩ := hagree core hcore
  obtain ⟨w, hw, hw'⟩ := agree_of_satisfies hsat hc core hcore
  rw [hz', ← hz, hw', ← hw, hdim]

/-- Two loops, each split in two. -/
def twoLoops : IterationSpace where
  loops := [("x", 2), ("y", 2)]
  nodup := by decide
  pos := by decide

/-- A tensor whose slices of `x` belong to two cores in a row. -/
def outerOwner : TensorWorkDivision where
  workSlices := [("x", 2)]
  coreIdToWorkSlice dim := if dim = "x" then some fun core => some (core / 2 : ℕ) else none
  numCores := some 4

/-- The default has `x` vary first, and `x` is moved outside. -/
theorem deriveOperationMapping_bijOn_twoLoops :
    ∃ m, deriveOperationMapping twoLoops [some outerOwner] none = .ok m ∧ slot m "x" 2 = 1 ∧
      Set.BijOn (slots m twoLoops.dims) (Set.Iio twoLoops.numCores)
        {t | List.Forall₂ (· < ·) t twoLoops.splits} := by
  refine ⟨_, rfl, by decide, ?_⟩
  exact (deriveOperationMapping_bijOn twoLoops [some outerOwner] none _ rfl).2.1

end Owners

end CoreMapping

end TorchSpyre
