import Mathlib
import TorchSpyre.Checked
import TorchSpyre.Contiguous

/-!
# Dividing an iteration space over cores

`multi_dim_iteration_space_split` gives each loop variable a split factor, with at most `max_cores`
cores in all. It reserves the mandatory factors first, then lets each output variable grow in order
of priority, and last lets one reduction variable grow. A factor grows by replacing it : the running
core count is divided by the old factor and multiplied by the new one, which is exact because the
count is the product of the factors (`Division.Counts`).

An output variable is visited once. Later steps only make the other factors larger, so what did not
fit then does not fit at the end (`Full.set_of_ne`), and the result cannot be improved in one
variable. -/

open List

namespace TorchSpyre

namespace WorkDivision

open Checked

variable {V : Type} [DecidableEq V]

/-! ## Split factors -/

/-- A dictionary from variables to split factors. A variable that is no key is not split. -/
structure Splits (V : Type) where
  keys : Finset V
  factor : V → ℕ
  outside : ∀ v, v ∉ keys → factor v = 1

namespace Splits

/-- `dict.fromkeys(keys, 1)`. -/
def ones (keys : Finset V) : Splits V where
  keys := keys
  factor _ := 1
  outside _ _ := rfl

/-- `splits[v] = s`. -/
def set (splits : Splits V) (v : V) (s : ℕ) : Splits V where
  keys := insert v splits.keys
  factor := Function.update splits.factor v s
  outside w hw := by
    rw [Finset.mem_insert, not_or] at hw
    rw [Function.update_of_ne hw.1]
    exact splits.outside w hw.2

/-- `math.prod(splits.values())`. -/
def total (splits : Splits V) : ℕ :=
  ∏ v ∈ splits.keys, splits.factor v

/-- The product of the factors of the other variables. -/
def others (splits : Splits V) (v : V) : ℕ :=
  ∏ w ∈ splits.keys.erase v, splits.factor w

variable {splits : Splits V} {v w : V} {s : ℕ}

@[simp] theorem set_keys : (splits.set v s).keys = insert v splits.keys := rfl

@[simp] theorem set_factor_self : (splits.set v s).factor v = s := by
  simp [set]

@[simp] theorem set_factor_of_ne (h : w ≠ v) : (splits.set v s).factor w = splits.factor w := by
  simp [set, h]

omit [DecidableEq V] in
@[simp] theorem total_ones (keys : Finset V) : (ones keys).total = 1 := by
  simp [total, ones]

variable (splits v) in
theorem total_eq : splits.total = splits.factor v * splits.others v := by
  rw [total, others]
  by_cases hv : v ∈ splits.keys
  · exact (Finset.mul_prod_erase splits.keys splits.factor hv).symm
  · rw [splits.outside v hv, one_mul, Finset.erase_eq_of_notMem hv]

@[simp] theorem others_set_self : (splits.set v s).others v = splits.others v := by
  rw [others, others, set_keys, Finset.erase_insert_eq_erase]
  exact Finset.prod_congr rfl fun w hw => set_factor_of_ne (Finset.ne_of_mem_erase hw)

theorem total_set : (splits.set v s).total = s * splits.others v := by
  rw [total_eq _ v, set_factor_self, others_set_self]

theorem total_div (h : 0 < splits.factor v) : splits.total / splits.factor v = splits.others v := by
  rw [total_eq splits v, Nat.mul_div_cancel_left _ h]

/-- Larger factors elsewhere have a larger product. -/
theorem others_le_of_le {splits' : Splits V}
    (hle : ∀ w, w ≠ v → splits.factor w ≤ splits'.factor w) :
    splits.others v ≤ splits'.others v := by
  have hunion : ∀ (d : Splits V), d.keys ⊆ splits.keys ∪ splits'.keys →
      d.others v = ∏ w ∈ (splits.keys ∪ splits'.keys).erase v, d.factor w := by
    intro d hkeys
    refine Finset.prod_subset (Finset.erase_subset_erase v hkeys) fun w hw hnot => ?_
    exact d.outside w fun hmem => hnot (Finset.mem_erase.2 ⟨Finset.ne_of_mem_erase hw, hmem⟩)
  rw [hunion splits Finset.subset_union_left, hunion splits' Finset.subset_union_right]
  exact Finset.prod_le_prod' fun w hw => hle w (Finset.ne_of_mem_erase hw)

end Splits

/-! ## The problem -/

/-- The input of `multi_dim_iteration_space_split`. Sizes are concrete, `symbolMeta` has the maximal
size and the granularity of a symbolic variable. Dictionaries have distinct keys, and split factors
and the core limit are positive. -/
structure Problem (V : Type) where
  iterationSpace : List (V × ℕ)
  maxCores : ℕ
  outputDims : List V
  reductionDims : List V
  minSplits : List (V × ℕ)
  symbolMeta : List (V × (ℕ × ℕ))
  allowedSplits : List (V × Finset ℕ)
  maxCores_pos : 0 < maxCores
  minSplits_nodup : (minSplits.map Prod.fst).Nodup
  minSplits_pos : ∀ floor ∈ minSplits, 0 < floor.2
  allowedSplits_nodup : (allowedSplits.map Prod.fst).Nodup
  allowedSplits_pos : ∀ domain ∈ allowedSplits, ∀ s ∈ domain.2, 0 < s

/-- The ways `multi_dim_iteration_space_split` fails. The first three are `Unsupported`, then the
`ValueError` of a minimum over an empty domain and the `KeyError` of a missing variable. -/
inductive SplitError (V : Type) where
  | mandatoryOverBudget (split : ℕ) (v : V) (maxCores : ℕ)
  | outsideDomain (split : ℕ) (v : V)
  | twoReductions (dims : List V)
  | emptyDomain (v : V)
  | missing (v : V)
deriving DecidableEq

/-- Reading `splits[v]` needs the key. -/
def Splits.has (splits : Splits V) (v : V) : Except (SplitError V) Unit :=
  guardE (v ∈ splits.keys) (.missing v)

/-- `sympy.divisors`. -/
def divisors (n : ℕ) : List ℕ :=
  (List.range (n + 1)).filter fun s => 0 < s ∧ s ∣ n

theorem mem_divisors {n s : ℕ} : s ∈ divisors n ↔ s ∈ Nat.divisors n := by
  rw [divisors, mem_filter, mem_range, decide_eq_true_eq, Nat.mem_divisors]
  constructor
  · rintro ⟨hlt, hpos, hdvd⟩
    exact ⟨hdvd, by omega⟩
  · rintro ⟨hdvd, hne⟩
    have hle := Nat.le_of_dvd (Nat.pos_of_ne_zero hne) hdvd
    exact ⟨by omega, Nat.pos_of_dvd_of_pos hdvd (Nat.pos_of_ne_zero hne), hdvd⟩

theorem pairwise_divisors (n : ℕ) : (divisors n).Pairwise (· < ·) :=
  pairwise_lt_range.filter _

/-- `_legal_split_factors`. -/
def legalSplitFactors (v : V) (basis : ℕ) (allowedSplits : List (V × Finset ℕ))
    (minSplits : List (V × ℕ)) : List ℕ :=
  let factors := divisors basis
  let factors := (allowedSplits.lookup v).elim factors fun allowed =>
    factors.filter fun s => s ∈ allowed
  factors.filter fun s => (minSplits.lookup v).getD 1 ≤ s

theorem mem_legalSplitFactors {v : V} {basis s : ℕ} {allowedSplits : List (V × Finset ℕ)}
    {minSplits : List (V × ℕ)} : s ∈ legalSplitFactors v basis allowedSplits minSplits ↔
      s ∈ Nat.divisors basis ∧ (∀ domain, allowedSplits.lookup v = some domain → s ∈ domain) ∧
        ∀ floor, minSplits.lookup v = some floor → floor ≤ s := by
  have hdomain : s ∈ (allowedSplits.lookup v).elim (divisors basis)
      (fun allowed => (divisors basis).filter fun s => s ∈ allowed) ↔
      s ∈ Nat.divisors basis ∧ ∀ domain, allowedSplits.lookup v = some domain → s ∈ domain := by
    cases allowedSplits.lookup v with
    | none => simp [mem_divisors]
    | some allowed => simp [mem_divisors]
  have hfloor : 0 < s → ((minSplits.lookup v).getD 1 ≤ s ↔
      ∀ floor, minSplits.lookup v = some floor → floor ≤ s) := by
    intro hpos
    cases minSplits.lookup v with
    | none => simpa using Nat.succ_le_of_lt hpos
    | some m => simp
  rw [legalSplitFactors, mem_filter, hdomain, decide_eq_true_eq, and_assoc]
  refine and_congr_right fun hdvd => and_congr_right fun _ => ?_
  exact hfloor (Nat.pos_of_mem_divisors hdvd)

/-- `_largest_legal_split_from` over the legal factors. -/
def largestLegalSplitFrom (legal : List ℕ) (currentSplit coresUsed maxCores : ℕ) : ℕ :=
  (legal.reverse.find? fun split =>
    currentSplit ≤ split ∧ coresUsed / currentSplit * split ≤ maxCores).getD currentSplit

/-- The factors chosen so far and the number of cores they use. -/
structure Division (V : Type) where
  splits : Splits V
  coresUsed : ℕ

namespace Problem

/-- `_valid_divisor_basis`. -/
def validDivisorBasis (p : Problem V) (v : V) : ℕ :=
  (p.symbolMeta.lookup v).elim ((p.iterationSpace.lookup v).getD 1) fun m => m.2

/-- The factors of a variable that may be chosen. -/
def legal (p : Problem V) (v : V) : List ℕ :=
  legalSplitFactors v (p.validDivisorBasis v) p.allowedSplits p.minSplits

/-- A factor the source may choose : it divides the basis, lies in the domain and meets the floor.
-/
structure Legal (p : Problem V) (v : V) (s : ℕ) : Prop where
  dvd : s ∈ Nat.divisors (p.validDivisorBasis v)
  domain : ∀ domain, (v, domain) ∈ p.allowedSplits → s ∈ domain
  floor : ∀ floor, (v, floor) ∈ p.minSplits → floor ≤ s

variable {d : Division V} {mandatory : List (V × ℕ)} {p : Problem V}

theorem mem_legal {v : V} {s : ℕ} : s ∈ p.legal v ↔ p.Legal v s := by
  rw [legal, mem_legalSplitFactors]
  simp only [Lists.lookup_eq_some_iff_mem p.allowedSplits_nodup,
    Lists.lookup_eq_some_iff_mem p.minSplits_nodup]
  constructor
  · rintro ⟨hdvd, hdomain, hfloor⟩
    exact ⟨hdvd, hdomain, hfloor⟩
  · rintro ⟨hdvd, hdomain, hfloor⟩
    exact ⟨hdvd, hdomain, hfloor⟩

theorem pairwise_legal (p : Problem V) (v : V) : (p.legal v).Pairwise (· < ·) := by
  rw [legal, legalSplitFactors]
  refine List.Pairwise.filter _ ?_
  cases p.allowedSplits.lookup v with
  | none => exact pairwise_divisors _
  | some allowed => exact (pairwise_divisors _).filter _

/-- `mandatory_splits` : the floors, and the least factor of each domain that excludes one. -/
def mandatorySplits (p : Problem V) : Except (SplitError V) (List (V × ℕ)) := do
  let domains := p.allowedSplits.filter fun domain =>
    1 ∉ domain.2 ∧ domain.1 ∉ p.minSplits.map Prod.fst
  let smallest ← mapE (fun domain =>
    if h : domain.2.Nonempty then .ok (domain.1, domain.2.min' h)
    else .error (.emptyDomain domain.1)) domains
  .ok (p.minSplits ++ smallest)

/-- One mandatory factor. -/
def reserveStep (p : Problem V) (d : Division V) (mandatory : V × ℕ) :
    Except (SplitError V) (Division V) := do
  guardE (d.coresUsed * mandatory.2 ≤ p.maxCores)
    (.mandatoryOverBudget mandatory.2 mandatory.1 p.maxCores)
  guardE (mandatory.2 ∈ (p.allowedSplits.lookup mandatory.1).getD {mandatory.2})
    (.outsideDomain mandatory.2 mandatory.1)
  .ok ⟨d.splits.set mandatory.1 mandatory.2, d.coresUsed * mandatory.2⟩

/-- The largest factor a variable can have in place of its own. -/
def reach (p : Problem V) (d : Division V) (v : V) : ℕ :=
  largestLegalSplitFrom (p.legal v) (d.splits.factor v) d.coresUsed p.maxCores

/-- Replace the factor of a variable. -/
def grow (d : Division V) (v : V) (best : ℕ) : Division V :=
  ⟨d.splits.set v best, d.coresUsed / d.splits.factor v * best⟩

/-- Let a variable grow as far as it can. -/
def visit (p : Problem V) (d : Division V) (v : V) : Division V :=
  if d.splits.factor v < p.reach d v then grow d v (p.reach d v) else d

/-- The loop over the output variables. -/
def distribute (p : Problem V) : Division V → List V → Except (SplitError V) (Division V)
  | d, [] => .ok d
  | d, v :: dims =>
    if p.maxCores ≤ d.coresUsed then .ok d
    else do
      d.splits.has v
      distribute p (p.visit d v) dims

/-- One variable of `_most_splittable_dim`. -/
def mostSplittableStep (p : Problem V) (d : Division V) (best : Option (V × ℕ)) (v : V) :
    Except (SplitError V) (Option (V × ℕ)) := do
  d.splits.has v
  .ok (if d.splits.factor v < p.reach d v ∧ best.elim 0 Prod.snd < p.reach d v then
    some (v, p.reach d v) else best)

/-- `_most_splittable_dim`. -/
def mostSplittableDim (p : Problem V) (d : Division V) (dims : List V) :
    Except (SplitError V) (Option (V × ℕ)) :=
  foldE (p.mostSplittableStep d) none dims

/-- The pass over the reduction variables. -/
def splitReduction (p : Problem V) (d : Division V) (splitReductionDims : List V) :
    Except (SplitError V) (Division V) :=
  if p.reductionDims ≠ [] ∧ d.coresUsed < p.maxCores then do
    let best ← p.mostSplittableDim d
      (if splitReductionDims = [] then p.reductionDims else splitReductionDims)
    .ok (best.elim d fun b => grow d b.1 b.2)
  else .ok d

/-- `multi_dim_iteration_space_split`. -/
def multiDimIterationSpaceSplit (p : Problem V) : Except (SplitError V) (Splits V) := do
  let mandatory ← p.mandatorySplits
  let d ← foldE p.reserveStep ⟨Splits.ones (p.iterationSpace.map Prod.fst).toFinset, 1⟩ mandatory
  checkAll d.splits.has p.reductionDims
  let splitReductionDims := p.reductionDims.filter fun v => 1 < d.splits.factor v
  guardE (splitReductionDims.length ≤ 1) (.twoReductions splitReductionDims)
  let d ← p.distribute d p.outputDims
  let d ← p.splitReduction d splitReductionDims
  .ok d.splits

/-! ## Reserving the mandatory factors -/

/-- The factors that every division has to have : the floors, and the smallest of a domain without
1. -/
structure Mandatory (p : Problem V) (mandatory : List (V × ℕ)) : Prop where
  nodup : (mandatory.map Prod.fst).Nodup
  floors : p.minSplits ⊆ mandatory
  smallest : ∀ m ∈ mandatory, m ∈ p.minSplits ∨
    ∃ domain, (m.1, domain) ∈ p.allowedSplits ∧ ∃ h : domain.Nonempty, domain.min' h = m.2
  covers : ∀ domain ∈ p.allowedSplits, 1 ∉ domain.2 → domain.1 ∈ mandatory.map Prod.fst

theorem mandatory_of_ok (h : p.mandatorySplits = .ok mandatory) : p.Mandatory mandatory := by
  obtain ⟨smallest, hsmallest, h⟩ := bind_eq_ok_iff.1 h
  obtain rfl := Except.ok.inj h
  have hfirst : smallest.map Prod.fst = (p.allowedSplits.filter fun domain =>
      1 ∉ domain.2 ∧ domain.1 ∉ p.minSplits.map Prod.fst).map Prod.fst := by
    refine map_eq_of_mapE hsmallest fun domain _ m hm => ?_
    split_ifs at hm
    exact (Except.ok.inj hm) ▸ rfl
  refine ⟨?_, subset_append_left _ _, fun m hm => ?_, fun domain hdomain hone => ?_⟩
  · rw [map_append, hfirst, nodup_append]
    refine ⟨p.minSplits_nodup, p.allowedSplits_nodup.sublist (filter_sublist.map _), ?_⟩
    rintro v hv w hw rfl
    obtain ⟨domain, hdomain, rfl⟩ := mem_map.1 hw
    exact (of_decide_eq_true (mem_filter.1 hdomain).2).2 hv
  · refine (mem_append.1 hm).imp_right fun hm => ?_
    obtain ⟨domain, hdomain, hmin⟩ := mem_of_mapE hsmallest hm
    split_ifs at hmin with hne
    obtain rfl := Except.ok.inj hmin
    exact ⟨domain.2, (mem_filter.1 hdomain).1, hne, rfl⟩
  · rw [map_append, hfirst, mem_append]
    by_cases hv : domain.1 ∈ p.minSplits.map Prod.fst
    · exact .inl hv
    · exact .inr (mem_map_of_mem (mem_filter.2 ⟨hdomain, by simp [hone, hv]⟩))

/-- What holds once the mandatory factors `done` are reserved. -/
structure Reserved (p : Problem V) (done : List (V × ℕ)) (d : Division V) : Prop where
  counts : d.coresUsed = d.splits.total
  fits : d.splits.total ≤ p.maxCores
  factor : ∀ v, d.splits.factor v = (done.lookup v).getD 1
  domain : ∀ m ∈ done, ∀ domain, (m.1, domain) ∈ p.allowedSplits → m.2 ∈ domain

theorem reserveStep_reserved {done : List (V × ℕ)} {m : V × ℕ} {d' : Division V}
    (hfresh : m.1 ∉ done.map Prod.fst) (hd : p.Reserved done d) (h : p.reserveStep d m = .ok d') :
    p.Reserved (done ++ [m]) d' := by
  obtain ⟨_, hbudget, h⟩ := bind_eq_ok_iff.1 h
  obtain ⟨_, hallowed, h⟩ := bind_eq_ok_iff.1 h
  obtain rfl := Except.ok.inj h
  rw [guardE_eq_ok_iff] at hbudget hallowed
  have hnone : done.lookup m.1 = none :=
    lookup_eq_none_iff.2 fun q hq => by
      have hne : m.1 ≠ q.1 := fun heq => hfresh (heq ▸ mem_map_of_mem hq)
      simpa using hne
  have hone : d.splits.factor m.1 = 1 := by
    rw [hd.factor, hnone, Option.getD_none]
  have hcount : d.coresUsed * m.2 = (d.splits.set m.1 m.2).total := by
    rw [hd.counts, Splits.total_set, d.splits.total_eq m.1, hone, one_mul, mul_comm]
  refine ⟨hcount, hcount ▸ hbudget, fun v => ?_, fun q hq domain hdomain => ?_⟩
  · rw [lookup_append]
    by_cases hv : v = m.1
    · subst hv
      rw [Splits.set_factor_self, hnone]
      simp [List.lookup]
    · have hbeq : (v == m.1) = false := beq_eq_false_iff_ne.2 hv
      rw [Splits.set_factor_of_ne hv, hd.factor]
      simp [List.lookup, hbeq]
  · rcases mem_append.1 hq with hq | hq
    · exact hd.domain q hq domain hdomain
    · obtain rfl := mem_singleton.1 hq
      rw [Lists.lookup_eq_of_mem p.allowedSplits_nodup hdomain] at hallowed
      exact hallowed

theorem reserved_of_ok {keys : Finset V} (hm : p.Mandatory mandatory)
    (h : foldE p.reserveStep ⟨Splits.ones keys, 1⟩ mandatory = .ok d) :
    p.Reserved mandatory d := by
  refine foldE_inv (I := p.Reserved) (fun pre m post t t' hsplit ht hstep => ?_) ?_ h
  · have hnd := hm.nodup
    rw [hsplit, map_append, map_cons] at hnd
    refine reserveStep_reserved (fun hmem => ?_) ht hstep
    exact (nodup_append.1 hnd).2.2 m.1 hmem m.1 mem_cons_self rfl
  · refine ⟨by simp, ?_, fun v => rfl, by simp⟩
    rw [Splits.total_ones]
    exact p.maxCores_pos

/-- The running count is the product of the factors, which fit the core limit, divide their bases,
meet their floors and lie in their domains. -/
structure Holds (p : Problem V) (d : Division V) : Prop where
  counts : d.coresUsed = d.splits.total
  fits : d.splits.total ≤ p.maxCores
  pos : ∀ v, 0 < d.splits.factor v
  dvd : ∀ v, d.splits.factor v ∣ p.validDivisorBasis v
  floor : ∀ floor ∈ p.minSplits, floor.2 ≤ d.splits.factor floor.1
  domain : ∀ domain ∈ p.allowedSplits, d.splits.factor domain.1 ∈ domain.2

theorem Reserved.holds (hm : p.Mandatory mandatory) (hd : p.Reserved mandatory d)
    (hfloor : ∀ floor ∈ p.minSplits, floor.2 ∣ p.validDivisorBasis floor.1)
    (hdomain : ∀ domain ∈ p.allowedSplits, ∀ h : domain.2.Nonempty,
      domain.2.min' h ∣ p.validDivisorBasis domain.1) : p.Holds d := by
  have hmem : ∀ m ∈ mandatory, 0 < m.2 ∧ m.2 ∣ p.validDivisorBasis m.1 := by
    intro m hmem
    rcases hm.smallest m hmem with hmin | ⟨domain, hdom, hne, hmin⟩
    · exact ⟨p.minSplits_pos m hmin, hfloor m hmin⟩
    · exact hmin ▸ ⟨p.allowedSplits_pos _ hdom _ (domain.min'_mem hne), hdomain _ hdom hne⟩
  have hfactor : ∀ v, d.splits.factor v = 1 ∧ v ∉ mandatory.map Prod.fst ∨
      (v, d.splits.factor v) ∈ mandatory := by
    intro v
    rw [hd.factor]
    cases hv : mandatory.lookup v with
    | none =>
      refine .inl ⟨rfl, fun hkey => ?_⟩
      obtain ⟨m, hmem, rfl⟩ := mem_map.1 hkey
      rw [Lists.lookup_eq_of_mem hm.nodup hmem] at hv
      cases hv
    | some s => exact .inr (Lists.mem_of_lookup hv)
  have hall : ∀ v, 0 < d.splits.factor v ∧ d.splits.factor v ∣ p.validDivisorBasis v := by
    intro v
    rcases hfactor v with ⟨hv, -⟩ | hv
    · exact hv.symm ▸ ⟨one_pos, one_dvd _⟩
    · exact hmem _ hv
  refine ⟨hd.counts, hd.fits, fun v => (hall v).1, fun v => (hall v).2, fun floor hmin => ?_,
    fun domain hdom => ?_⟩
  · rw [hd.factor, Lists.lookup_eq_of_mem hm.nodup (hm.floors hmin)]
    rfl
  · rcases hfactor domain.1 with ⟨hv, hkey⟩ | hv
    · rw [hv]
      by_contra hone
      exact hkey (hm.covers domain hdom hone)
    · exact hd.domain _ hv domain.2 hdom

/-! ## Growing -/

/-- No larger legal factor of the variable fits beside the other factors. -/
def Full (p : Problem V) (splits : Splits V) (v : V) : Prop :=
  ∀ s, p.Legal v s → splits.factor v < s → p.maxCores < splits.others v * s

section Grow

variable {p : Problem V} {d d' : Division V} {v : V}

theorem Full.mono {splits splits' : Splits V} (h : p.Full splits v)
    (hle : ∀ w, splits.factor w ≤ splits'.factor w) : p.Full splits' v := by
  intro s hs hlt
  have hothers : splits.others v ≤ splits'.others v := Splits.others_le_of_le fun w _ => hle w
  exact (h s hs (lt_of_le_of_lt (hle v) hlt)).trans_le (Nat.mul_le_mul_right s hothers)

theorem Holds.others_pos (hd : p.Holds d) (v : V) : 0 < d.splits.others v :=
  Finset.prod_pos fun w _ => hd.pos w

/-- Once the limit is reached nothing can grow. -/
theorem Holds.full_of_exhausted (hd : p.Holds d) (h : p.maxCores ≤ d.coresUsed) (v : V) :
    p.Full d.splits v := by
  intro s _ hlt
  calc p.maxCores ≤ d.coresUsed := h
    _ = d.splits.others v * d.splits.factor v := by
      rw [hd.counts, d.splits.total_eq v, mul_comm]
    _ < d.splits.others v * s := Nat.mul_lt_mul_of_pos_left hlt (hd.others_pos v)

theorem Holds.reach_cases (hd : p.Holds d) (v : V) :
    d.splits.factor v ≤ p.reach d v ∧
    (p.reach d v ≠ d.splits.factor v →
      p.Legal v (p.reach d v) ∧ d.splits.others v * p.reach d v ≤ p.maxCores) ∧
    ∀ s, p.Legal v s → p.reach d v < s → p.maxCores < d.splits.others v * s := by
  have hdiv : d.coresUsed / d.splits.factor v = d.splits.others v := by
    rw [hd.counts, Splits.total_div (hd.pos v)]
  rw [reach, largestLegalSplitFrom, hdiv]
  cases hfind : (p.legal v).reverse.find? fun split =>
      d.splits.factor v ≤ split ∧ d.splits.others v * split ≤ p.maxCores with
  | none =>
    rw [find?_eq_none] at hfind
    refine ⟨le_rfl, fun hne => absurd rfl hne, fun s hs hlt => ?_⟩
    have hnot := hfind s (mem_reverse.2 (mem_legal.2 hs))
    simp only [decide_eq_true_eq, not_and, not_le] at hnot
    exact hnot (le_of_lt hlt)
  | some best =>
    obtain ⟨hbest, pre, post, hsplit, hpre⟩ := find?_eq_some_iff_append.1 hfind
    rw [decide_eq_true_eq] at hbest
    have hmem : best ∈ p.legal v := by
      rw [← mem_reverse, hsplit]
      simp
    refine ⟨hbest.1, fun _ => ⟨mem_legal.1 hmem, hbest.2⟩, fun s hs hlt => ?_⟩
    have hs' : s ∈ pre ++ best :: post := hsplit ▸ mem_reverse.2 (mem_legal.2 hs)
    have hsorted : (pre ++ best :: post).Pairwise (· > ·) := by
      rw [← hsplit, pairwise_reverse]
      exact p.pairwise_legal v
    -- the factors before the chosen one are the larger ones, and none of them fits
    have hbefore : s ∈ pre := by
      rcases mem_append.1 hs' with hs' | hs'
      · exact hs'
      · rcases mem_cons.1 hs' with rfl | hs'
        · exact absurd hlt (lt_irrefl _)
        · have hgt := (pairwise_cons.1 (pairwise_append.1 hsorted).2.1).1 s hs'
          exact absurd hlt (not_lt_of_gt hgt)
    have hnot := hpre s hbefore
    simp only [Bool.not_eq_true', decide_eq_false_iff_not, not_and, not_le] at hnot
    exact hnot (hbest.1.trans (le_of_lt hlt))

/-- What letting a variable grow does. -/
structure Visited (p : Problem V) (d : Division V) (v : V) (d' : Division V) : Prop where
  holds : p.Holds d'
  le : ∀ w, d.splits.factor w ≤ d'.splits.factor w
  other : ∀ w, w ≠ v → d'.splits.factor w = d.splits.factor w
  full : p.Full d'.splits v

theorem Holds.visited (hd : p.Holds d) (v : V) : p.Visited d v (p.visit d v) := by
  obtain ⟨hle, hlegal, hfull⟩ := hd.reach_cases v
  rw [visit]
  split_ifs with hlt
  · obtain ⟨hlegal, hfits⟩ := hlegal (ne_of_gt hlt)
    have hcount : d.coresUsed / d.splits.factor v * p.reach d v =
        (d.splits.set v (p.reach d v)).total := by
      rw [hd.counts, Splits.total_div (hd.pos v), Splits.total_set, mul_comm]
    have hother : ∀ w, w ≠ v → (d.splits.set v (p.reach d v)).factor w = d.splits.factor w :=
      fun w hw => Splits.set_factor_of_ne hw
    have hgrow : ∀ w, d.splits.factor w ≤ (d.splits.set v (p.reach d v)).factor w := by
      intro w
      by_cases hw : w = v
      · rw [hw, Splits.set_factor_self]
        exact hle
      · rw [hother w hw]
    refine ⟨⟨hcount, ?_, fun w => (hd.pos w).trans_le (hgrow w), fun w => ?_,
      fun floor hmin => (hd.floor floor hmin).trans (hgrow _), fun domain hdom => ?_⟩, hgrow,
      hother,
      fun s hs hlt' => ?_⟩
    · rw [grow, Splits.total_set, mul_comm]
      exact hfits
    · by_cases hw : w = v
      · rw [hw, grow, Splits.set_factor_self]
        exact Nat.dvd_of_mem_divisors hlegal.dvd
      · rw [grow, hother w hw]
        exact hd.dvd w
    · by_cases hw : domain.1 = v
      · rw [hw, grow, Splits.set_factor_self]
        exact hlegal.domain domain.2 (hw ▸ hdom)
      · rw [grow, hother _ hw]
        exact hd.domain domain hdom
    · rw [grow, Splits.set_factor_self] at hlt'
      rw [grow, Splits.others_set_self]
      exact hfull s hs hlt'
  · have heq : p.reach d v = d.splits.factor v := le_antisymm (not_lt.1 hlt) hle
    exact ⟨hd, fun _ => le_rfl, fun _ _ => rfl, fun s hs hlt' => hfull s hs (heq ▸ hlt')⟩

variable {dims : List V}

/-- The output variables are full once all are visited. -/
theorem Holds.distributed (hd : p.Holds d) (h : p.distribute d dims = .ok d') :
    p.Holds d' ∧ (∀ w, d.splits.factor w ≤ d'.splits.factor w) ∧
      (∀ w, w ∉ dims → d'.splits.factor w = d.splits.factor w) ∧
      ∀ v ∈ dims, p.Full d'.splits v := by
  induction dims generalizing d with
  | nil =>
    obtain rfl := Except.ok.inj h
    exact ⟨hd, fun _ => le_rfl, fun _ _ => rfl, by simp⟩
  | cons v dims ih =>
    rw [distribute] at h
    split_ifs at h with hmax
    · obtain rfl := Except.ok.inj h
      exact ⟨hd, fun _ => le_rfl, fun _ _ => rfl, fun w _ => hd.full_of_exhausted hmax w⟩
    · obtain ⟨_, -, hrest⟩ := bind_eq_ok_iff.1 h
      have hv := hd.visited v
      obtain ⟨hholds, hle, hother, hfull⟩ := ih hv.holds hrest
      refine ⟨hholds, fun w => (hv.le w).trans (hle w), fun w hw => ?_, fun w hw => ?_⟩
      · rw [hother w fun hmem => hw (mem_cons_of_mem v hmem),
          hv.other w fun heq => hw (heq ▸ mem_cons_self)]
      · rcases mem_cons.1 hw with rfl | hw
        · exact hv.full.mono hle
        · exact hfull w hw

/-- The variable found, if any, can grow, and otherwise none can. -/
theorem mostSplittableDim_cases {best : Option (V × ℕ)}
    (h : p.mostSplittableDim d dims = .ok best) :
    best = none ∧ (∀ v ∈ dims, ¬ d.splits.factor v < p.reach d v) ∨
      ∃ v ∈ dims, best = some (v, p.reach d v) ∧ d.splits.factor v < p.reach d v := by
  refine foldE_inv (I := fun dims best => best = none ∧
      (∀ v ∈ dims, ¬ d.splits.factor v < p.reach d v) ∨
        ∃ v ∈ dims, best = some (v, p.reach d v) ∧ d.splits.factor v < p.reach d v)
    (fun pre v post best best' _ hbest hstep => ?_) (.inl ⟨rfl, by simp⟩) h
  obtain ⟨_, -, hstep⟩ := bind_eq_ok_iff.1 hstep
  obtain rfl := Except.ok.inj hstep
  split_ifs with hif
  · exact .inr ⟨v, by simp, rfl, hif.1⟩
  · rcases hbest with ⟨rfl, hnone⟩ | ⟨w, hw, rfl, hlt⟩
    · refine .inl ⟨rfl, fun w hw => ?_⟩
      rcases mem_append.1 hw with hw | hw
      · exact hnone w hw
      · obtain rfl := mem_singleton.1 hw
        exact fun hlt => hif ⟨hlt, Nat.zero_lt_of_lt hlt⟩
    · exact .inr ⟨w, mem_append_left _ hw, rfl, hlt⟩

/-- Either one eligible variable grew, or all are full. -/
theorem Holds.splitReduction_cases (hd : p.Holds d) (hsub : dims ⊆ p.reductionDims)
    (h : p.splitReduction d dims = .ok d') :
    d' = d ∧ (∀ v ∈ if dims = [] then p.reductionDims else dims, p.Full d.splits v) ∨
      ∃ v ∈ if dims = [] then p.reductionDims else dims, d' = p.visit d v ∧
        d.splits.factor v < d'.splits.factor v := by
  rw [splitReduction] at h
  by_cases hif : p.reductionDims ≠ [] ∧ d.coresUsed < p.maxCores
  · rw [if_pos hif] at h
    obtain ⟨best, hbest, h⟩ := bind_eq_ok_iff.1 h
    obtain rfl := Except.ok.inj h
    rcases mostSplittableDim_cases hbest with ⟨rfl, hnone⟩ | ⟨v, hv, rfl, hlt⟩
    · refine .inl ⟨rfl, fun v hv => ?_⟩
      have hfull := (hd.visited v).full
      rw [visit, if_neg (hnone v hv)] at hfull
      exact hfull
    · refine .inr ⟨v, hv, by rw [visit, if_pos hlt]; rfl, ?_⟩
      rw [Option.elim_some, grow, Splits.set_factor_self]
      exact hlt
  · rw [if_neg hif] at h
    obtain rfl := Except.ok.inj h
    refine .inl ⟨rfl, fun v hv => ?_⟩
    by_cases hred : p.reductionDims = []
    · have hnil : dims = [] := subset_nil.1 (hred ▸ hsub)
      rw [if_pos hnil, hred] at hv
      cases hv
    · exact hd.full_of_exhausted (not_lt.1 fun hlt => hif ⟨hred, hlt⟩) v

end Grow

/-! ## The result -/

/-- A division that is returned fits the core limit. Its factors divide their bases, meet their
floors and lie in their domains, at most one reduction variable is split, and no variable can grow
alone. -/
theorem multiDimIterationSpaceSplit_spec {p : Problem V} {splits : Splits V}
    (hdisjoint : p.outputDims.Disjoint p.reductionDims)
    (hfloor : ∀ floor ∈ p.minSplits, floor.2 ∣ p.validDivisorBasis floor.1)
    (hdomain : ∀ domain ∈ p.allowedSplits, ∀ h : domain.2.Nonempty,
      domain.2.min' h ∣ p.validDivisorBasis domain.1)
    (h : p.multiDimIterationSpaceSplit = .ok splits) :
    splits.total ≤ p.maxCores ∧
    (∀ v, splits.factor v ∣ p.validDivisorBasis v) ∧
    (∀ floor ∈ p.minSplits, floor.2 ≤ splits.factor floor.1) ∧
    (∀ domain ∈ p.allowedSplits, splits.factor domain.1 ∈ domain.2) ∧
    (∀ v ∈ p.reductionDims, ∀ w ∈ p.reductionDims, 1 < splits.factor v → 1 < splits.factor w →
      v = w) ∧
    (∀ v ∈ p.outputDims, ∀ s, p.Legal v s → splits.factor v < s →
      p.maxCores < splits.others v * s) ∧
    ∀ v ∈ p.reductionDims, (∀ w ∈ p.reductionDims, w ≠ v → splits.factor w = 1) →
      ∀ s, p.Legal v s → splits.factor v < s → p.maxCores < splits.others v * s := by
  obtain ⟨mandatory, hmandatory, h⟩ := bind_eq_ok_iff.1 h
  obtain ⟨d₀, hreserve, h⟩ := bind_eq_ok_iff.1 h
  obtain ⟨_, -, h⟩ := bind_eq_ok_iff.1 h
  obtain ⟨_, hone, h⟩ := bind_eq_ok_iff.1 h
  obtain ⟨d₁, hdistribute, h⟩ := bind_eq_ok_iff.1 h
  obtain ⟨d₂, hreduce, h⟩ := bind_eq_ok_iff.1 h
  obtain rfl := Except.ok.inj h
  rw [guardE_eq_ok_iff] at hone
  have hm := mandatory_of_ok hmandatory
  have hd₀ : p.Holds d₀ := (reserved_of_ok hm hreserve).holds hm hfloor hdomain
  obtain ⟨hd₁, hle₁, hsame₁, hfull₁⟩ := hd₀.distributed hdistribute
  have hsplit : ∀ v, v ∈ p.reductionDims.filter (fun v => 1 < d₀.splits.factor v) ↔
      v ∈ p.reductionDims ∧ 1 < d₁.splits.factor v := by
    intro v
    rw [mem_filter, decide_eq_true_eq]
    exact and_congr_right fun hv => by rw [hsame₁ v fun hout => hdisjoint hout hv]
  generalize p.reductionDims.filter (fun v => 1 < d₀.splits.factor v) = dims at hone hsplit hreduce
  have huniq : ∀ v ∈ dims, ∀ w ∈ dims, v = w := by
    intro v hv w hw
    cases dims with
    | nil => cases hv
    | cons u dims =>
      obtain rfl : dims = [] := eq_nil_of_length_eq_zero (by simpa using hone)
      rw [mem_singleton.1 hv, mem_singleton.1 hw]
  -- what the last pass may grow : the split reduction variable, or any if there is none
  have heligible : ∀ v ∈ (if dims = [] then p.reductionDims else dims), v ∈ p.reductionDims ∧
      ∀ w ∈ p.reductionDims, w ≠ v → d₁.splits.factor w = 1 := by
    intro v hv
    have hnotSplit : ∀ w ∈ p.reductionDims, w ∉ dims → d₁.splits.factor w = 1 := fun w hw hnot =>
      le_antisymm (not_lt.1 fun hlt => hnot ((hsplit w).2 ⟨hw, hlt⟩)) (hd₁.pos w)
    split_ifs at hv with hnil
    · exact ⟨hv, fun w hw _ => hnotSplit w hw (by simp [hnil])⟩
    · exact ⟨((hsplit v).1 hv).1, fun w hw hne =>
        hnotSplit w hw fun hmem => hne (huniq w hmem v hv)⟩
  rcases hd₁.splitReduction_cases (fun v hv => ((hsplit v).1 hv).1) hreduce with
    ⟨rfl, hfull⟩ | ⟨u, hu, rfl, hgrew⟩
  · refine ⟨hd₁.fits, hd₁.dvd, hd₁.floor, hd₁.domain, fun v hv w hw hv1 hw1 =>
      huniq v ((hsplit v).2 ⟨hv, hv1⟩) w ((hsplit w).2 ⟨hw, hw1⟩), hfull₁, fun v hv hothers => ?_⟩
    refine hfull v ?_
    split_ifs with hnil
    · exact hv
    · obtain ⟨u, hu⟩ := exists_mem_of_ne_nil dims hnil
      obtain ⟨hured, hu1⟩ := (hsplit u).1 hu
      by_cases huv : u = v
      · exact huv ▸ hu
      · exact absurd (hothers u hured huv) (ne_of_gt hu1)
  · obtain ⟨hured, hrest⟩ := heligible u hu
    have hv := hd₁.visited u
    have hgrown : ∀ w ∈ p.reductionDims, 1 < (p.visit d₁ u).splits.factor w → w = u := by
      intro w hw hw1
      by_contra hne
      rw [hv.other w hne, hrest w hw hne] at hw1
      exact lt_irrefl 1 hw1
    refine ⟨hv.holds.fits, hv.holds.dvd, hv.holds.floor, hv.holds.domain,
      fun v hvred w hwred hv1 hw1 => (hgrown v hvred hv1).trans (hgrown w hwred hw1).symm,
      fun v hvout => (hfull₁ v hvout).mono hv.le, fun v hvred hothers => ?_⟩
    by_cases huv : u = v
    · exact huv ▸ hv.full
    · exact absurd (hothers u hured huv)
        (ne_of_gt (lt_of_le_of_lt (hd₁.pos u) hgrew))

/-- A floor, a domain without one and two reduction variables. -/
def floorAndDomain : Problem ℕ where
  iterationSpace := [(0, 6), (1, 16), (2, 8), (3, 4)]
  maxCores := 32
  outputDims := [1, 0]
  reductionDims := [2, 3]
  minSplits := [(0, 2)]
  symbolMeta := [(1, (16, 8))]
  allowedSplits := [(1, {2, 4}), (2, {1, 2})]
  maxCores_pos := by decide
  minSplits_nodup := by decide
  minSplits_pos := by decide
  allowedSplits_nodup := by decide
  allowedSplits_pos := by decide

theorem multiDimIterationSpaceSplit_spec_floorAndDomain :
    ∃ splits, floorAndDomain.multiDimIterationSpaceSplit = .ok splits ∧
      [0, 1, 2, 3].map splits.factor = [6, 4, 1, 1] ∧
      ∀ v ∈ floorAndDomain.outputDims, ∀ s, floorAndDomain.Legal v s → splits.factor v < s →
        floorAndDomain.maxCores < splits.others v * s := by
  have hok : (floorAndDomain.multiDimIterationSpaceSplit.map
      fun splits => [0, 1, 2, 3].map splits.factor) = .ok [6, 4, 1, 1] := by decide +kernel
  cases hrun : floorAndDomain.multiDimIterationSpaceSplit with
  | error e =>
    rw [hrun] at hok
    cases hok
  | ok splits =>
    rw [hrun] at hok
    refine ⟨splits, rfl, Except.ok.inj hok, ?_⟩
    exact (multiDimIterationSpaceSplit_spec (disjoint_left.2 (by decide)) (by decide)
      (by decide) hrun).2.2.2.2.2.1

end Problem

end WorkDivision

end TorchSpyre
