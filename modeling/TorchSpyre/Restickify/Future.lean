import Mathlib

/-!
# Restickify costs and the backward pass

`optimize_restickify.py` chooses one layout for each operation. A cost node says what the
restickify operations in front of an operation cost, for the layouts of its inputs and its own. The
search ranks its states by their cost and an estimate of the cost to come, made by a backward pass
(`computeFutureMinCost`).

A layout is an element of any type `L`. A cost is finite, in `C`, or infinite : the code has
floats that hold whole numbers of bytes, here their sums are exact.
-/

open List

namespace TorchSpyre.Restickify

variable {L C : Type}

/-! ## Cost nodes -/

/-- `EdgeCostMap` : the restick cost of one input of an operation, from the input's layout to the
target layout. `inLayouts` are the layouts the input may have. -/
structure EdgeCostMap (L C : Type) where
  depName : String
  inLayouts : List L
  cost : L → L → WithTop C

/-- The cost nodes. The input edges of a `FixedInOutNode` come with the layouts it requires. -/
inductive RestickNodeCost (L C : Type)
  | allSame (inputEdgeCosts outputEdgeCosts : List (EdgeCostMap L C))
  | fixedInOut (edgeCosts : List (EdgeCostMap L C × L)) (outStickCompatible : L → Bool)
  | anyIn

namespace RestickNodeCost

/-- `edge_costs`, the co-output edges included. -/
def edgeCosts : RestickNodeCost L C → List (EdgeCostMap L C)
  | allSame inputs outputs => inputs ++ outputs
  | fixedInOut edges _ => edges.map Prod.fst
  | anyIn => []

variable [DecidableEq L] [AddCommMonoid C] [LinearOrder C]

/-- `cost` : from the layouts of the inputs, in the order of `edgeCosts`, to the output's. -/
def cost : RestickNodeCost L C → List L → L → WithTop C
  | allSame inputs outputs, inLayouts, outStl =>
    let inputCost := (List.zipWith (fun ec lk => ec.cost lk outStl) inputs inLayouts).sum
    if inputCost = ⊤ then ⊤
    -- a co-output is the buffer itself : another layout there is never repaired
    else if (outputs.zip (inLayouts.drop inputs.length)).any fun p => p.2 ≠ outStl then ⊤
    else inputCost
  | fixedInOut edges outStickCompatible, inLayouts, outStl =>
    if outStickCompatible outStl then
      (List.zipWith (fun e lk => e.1.cost lk e.2) edges inLayouts).sum
    else ⊤
  | anyIn, _, _ => 0

/-- `min_input_cost` : the share of the input `depName`, the other inputs taken at their best. -/
def minInputCost : RestickNodeCost L C → String → L → L → WithTop C
  | allSame inputs _, depName, inStl, outStl =>
    match inputs.find? fun e => e.depName = depName with
    | none => 0
    | some ec =>
      if ec.cost inStl outStl = ⊤ then ⊤
      else if (inputs.filter fun e => e.depName ≠ depName).all fun e =>
          e.inLayouts.any fun other => e.cost other outStl < ⊤ then
        ec.cost inStl outStl
      else ⊤
  | fixedInOut edges outStickCompatible, depName, inStl, outStl =>
    if outStickCompatible outStl then
      let costs := (edges.filter fun e => e.1.depName = depName).map fun e => e.1.cost inStl e.2
      if costs = [] ∨ ⊤ ∈ costs then ⊤
      else if (edges.filter fun e => e.1.depName ≠ depName).all fun e =>
          e.1.inLayouts.any fun other => e.1.cost other e.2 < ⊤ then
        costs.sum
      else ⊤
    else ⊤
  | anyIn, _, _, _ => 0

end RestickNodeCost

/-- An operation that has `layouts`, its candidates, and so a `restick_cost_fn`. -/
structure Op (L C : Type) where
  name : String
  layouts : List L
  restickCostFn : RestickNodeCost L C

namespace Op

/-- The names of the buffers an operation reads, in the order of its edges. -/
def deps (op : Op L C) : List String :=
  op.restickCostFn.edgeCosts.map EdgeCostMap.depName

/-- Some edge of `op` is on the buffer `name`. -/
def uses (op : Op L C) (name : String) : Bool :=
  op.restickCostFn.edgeCosts.any fun ec => ec.depName = name

end Op

/-! ## The backward pass -/

section Future

variable [DecidableEq L] [AddCommMonoid C] [LinearOrder C]

/-- `future` : for each operation a bound for each candidate. -/
abbrev FutureTable (L C : Type) := List (String × List (L × C))

/-- `future.get(name, {}).get(stl, 0.0)`. -/
def FutureTable.get (future : FutureTable L C) (name : String) (stl : L) : C :=
  ((future.lookup name).bind fun candidates => candidates.lookup stl).getD 0

/-- The least cost a consumer adds if the buffer `name` has the layout `candidate`. An infinite
one is `cap`, a large finite number. -/
def bestDownstream (cap : C) (future : FutureTable L C) (name : String) (candidate : L)
    (dOp : Op L C) : C :=
  ((dOp.layouts.map fun dCand =>
    dOp.restickCostFn.minInputCost name candidate dCand + (future.get dOp.name dCand : C)).foldl
      min ⊤).untopD cap

/-- The bounds of one operation, from those of the operations after it. -/
def futureOf (cap : C) (operations : List (Op L C)) (op : Op L C) (future : FutureTable L C) :
    List (L × C) :=
  op.layouts.map fun candidate =>
    (candidate, ((operations.filter fun dOp => dOp.uses op.name).map
      (bestDownstream cap future op.name candidate)).sum)

/-- `compute_future_min_cost`. -/
def computeFutureMinCost (cap : C) (operations : List (Op L C)) : FutureTable L C :=
  operations.foldr (fun op future => (op.name, futureOf cap operations op future) :: future) []

end Future

/-! ## The order of the operations -/

/-- The operations are in topological order over the graph inputs : names are distinct, and an
operation reads graph inputs and operations before it. -/
structure Topological (inputs : List String) (ops : List (Op L C)) : Prop where
  nodup : (inputs ++ ops.map Op.name).Nodup
  deps : ∀ pre op post, ops = pre ++ op :: post → ∀ d ∈ op.deps, d ∈ inputs ∨ d ∈ pre.map Op.name

section Order

variable {inputs names : List String} {op : Op L C} {ops pre post : List (Op L C)} {name : String}

theorem Topological.nil (h : inputs.Nodup) :
    Topological inputs ([] : List (Op L C)) :=
  ⟨by simpa using h, fun pre op post hnil => by simp at hnil⟩

/-- An operation whose inputs are known makes its own name known. -/
theorem Topological.cons {ops : List (Op L C)} (hop : ∀ d ∈ op.deps, d ∈ inputs)
    (h : Topological (inputs ++ [op.name]) ops) :
    Topological inputs (op :: ops) := by
  refine ⟨by simpa using h.nodup, fun pre o post hsplit d hd => ?_⟩
  cases pre with
  | nil =>
    obtain ⟨rfl, -⟩ := List.cons.inj hsplit
    exact .inl (hop d hd)
  | cons o' pre =>
    obtain ⟨rfl, hrest⟩ := List.cons.inj hsplit
    have hd' := h.deps pre o post hrest d hd
    simp only [mem_append, mem_singleton] at hd'
    simp only [map_cons, mem_cons]
    tauto

theorem Op.uses_iff : op.uses name = true ↔ name ∈ op.deps := by
  simp [Op.uses, Op.deps]

/-- The buffers an operation and those before it read. -/
theorem Topological.mem_names (h : Topological names ops) (hsplit : ops = pre ++ op :: post)
    {o : Op L C} (ho : o ∈ pre ++ [op]) {d : String} (hd : d ∈ o.deps) :
    d ∈ names ++ pre.map Op.name := by
  rcases mem_append.1 ho with ho | ho
  · obtain ⟨p₁, p₂, rfl⟩ := append_of_mem ho
    rcases h.deps p₁ o (p₂ ++ op :: post) (by simpa using hsplit) d hd with hin | hpre
    · exact mem_append_left _ hin
    · refine mem_append_right _ ?_
      rw [map_append]
      exact mem_append_left _ hpre
  · obtain rfl := mem_singleton.1 ho
    exact mem_append.2 (h.deps pre o post hsplit d hd)

theorem Topological.not_mem_names (h : Topological names ops) (hsplit : ops = pre ++ op :: post) :
    op.name ∉ names ++ pre.map Op.name := by
  have hnd := h.nodup
  rw [hsplit, map_append, map_cons, ← append_assoc] at hnd
  exact fun hmem => (nodup_append.1 hnd).2.2 _ hmem _ mem_cons_self rfl

end Order

/-! ## Assignments -/

/-- `σ` gives each graph input its fixed layout and each operation one of its candidates. -/
structure Assigns (inputs : List (String × L)) (ops : List (Op L C)) (σ : String → L) : Prop where
  inputs : ∀ p ∈ inputs, σ p.1 = p.2
  ops : ∀ op ∈ ops, σ op.name ∈ op.layouts

variable [DecidableEq L] [AddCommMonoid C] [LinearOrder C]

/-- The restick cost of one operation under an assignment. -/
def Op.costUnder (op : Op L C) (σ : String → L) : WithTop C :=
  op.restickCostFn.cost (op.deps.map σ) (σ op.name)

/-- The total restickify cost of an assignment. -/
def totalCost (ops : List (Op L C)) (σ : String → L) : WithTop C :=
  (ops.map fun op => op.costUnder σ).sum

end TorchSpyre.Restickify
