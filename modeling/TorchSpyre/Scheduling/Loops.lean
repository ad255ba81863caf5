import Mathlib
import TorchSpyre.Checked
import TorchSpyre.DepthFirst

/-!
# Wrapping nodes into counted loops

`build_loop_scheduler_nodes` in `scheduler.py`. A node carries the path of the loops it stands
in, from the outside in, with a trip count for each. The nodes of one outermost loop are made
contiguous first : they are one unit of a graph, which is put in order by a depth-first search.
Then runs of nodes with one key at a depth are wrapped into a loop node, and the nodes of a run
again at the next depth.

A node outside loops has an empty path. A path and its counts are one list, as they have one
length. Dependencies are buffer names ; a name stands for the last node that makes it.
-/

namespace TorchSpyre

open Checked

namespace Scheduling

/-- A scheduler node. `levels` are the loops around it : the key of each, and its trip count. -/
structure Node (κ : Type) where
  name : String
  bufferNames : List String := []
  unmetDependencies : List String := []
  levels : List (ℕ × κ) := []
deriving DecidableEq

/-- The `loop_group_id`. -/
def Node.loopGroupId {κ : Type} (n : Node κ) : List ℕ :=
  n.levels.map Prod.fst

/-- The result of the pass : nodes, and loop nodes with their trip count. -/
inductive Tree (κ : Type) where
  | node (n : Node κ)
  | loop (count : κ) (snodes : List (Tree κ))

variable {κ : Type} [DecidableEq κ]

/-! ## Regrouping -/

/-- What is ordered as a whole : a node outside loops, or all nodes of an outermost loop. -/
inductive UnitKey (κ : Type) where
  | single (n : Node κ)
  | group (key : ℕ)
deriving DecidableEq

/-- The unit of a node : its outermost loop, or itself. -/
def unitOfNode (n : Node κ) : UnitKey κ :=
  match n.levels with
  | [] => .single n
  | l :: _ => .group l.1

section Regroup

variable (nodes : List (Node κ))

/-- The node that makes a buffer. -/
def nameToNode (name : String) : Option (Node κ) :=
  nodes.reverse.find? fun n => name ∈ n.bufferNames

/-- The nodes of a unit. -/
def unitMembers (u : UnitKey κ) : List (Node κ) :=
  nodes.filter fun n => unitOfNode n = u

/-- The other units that make what the members of a unit depend on. -/
def unitDeps (u : UnitKey κ) : List (UnitKey κ) :=
  ((((unitMembers nodes u).flatMap Node.unmetDependencies).filterMap (nameToNode nodes)).filter
    fun producer => producer ∉ unitMembers nodes u).map unitOfNode |>.eraseDups

/-- `_regroup_by_outer_loop_key`. -/
def regroupByOuterLoopKey : Except String (List (Node κ)) := do
  let orderedUnits ← DepthFirst.run (unitDeps nodes) (nodes.length + 1)
    (nodes.map unitOfNode).eraseDups
  return orderedUnits.flatMap (unitMembers nodes)

end Regroup

/-! ## Loops -/

/-- Two nodes with one key at a depth. -/
def sameRun (depth : ℕ) (a b : Node κ) : Bool :=
  decide (a.loopGroupId[depth]? = b.loopGroupId[depth]? ∧ depth < a.loopGroupId.length)

/-- Wrap a run. Its nodes must agree on the trip count. -/
def wrapRun (depth : ℕ) (inner : List (Node κ) → Except String (List (Tree κ))) :
    List (Node κ) → Except String (List (Tree κ))
  | [] => .ok []
  | node :: rest =>
    match node.levels[depth]? with
    | none => .ok ((node :: rest).map .node)
    | some (key, count) => do
      checkAll (fun n => guardE ((n.levels[depth]?).map Prod.snd = some count)
        s!"Loop group {key} has inconsistent loop_count at depth {depth}") rest
      let snodes ← inner (node :: rest)
      return [.loop count snodes]

/-- `_build_loop_group`. An error if the fuel runs out. -/
def buildLoopGroup : ℕ → ℕ → List (Node κ) → Except String (List (Tree κ))
  | 0, _, _ => .error "RecursionError"
  | fuel + 1, depth, nodes => do
    let parts ← mapE (wrapRun depth (buildLoopGroup fuel (depth + 1)))
      (nodes.splitBy (sameRun depth))
    return parts.flatten

mutual

/-- The nodes of a tree, in order. -/
def Tree.leaves : Tree κ → List (Node κ)
  | .node n => [n]
  | .loop _ snodes => leaves snodes

/-- The nodes of trees, in order. -/
def leaves : List (Tree κ) → List (Node κ)
  | [] => []
  | t :: ts => t.leaves ++ leaves ts

end

/-- The path of a node, if it is in a loop. -/
def Tree.nodePath : Tree κ → Option (List ℕ)
  | .node n => if n.loopGroupId = [] then none else some n.loopGroupId
  | .loop _ _ => none

/-- `_loop_group_id` of a tree. -/
def Tree.loopGroupId : Tree κ → Option (List ℕ)
  | .node n => (Tree.node n).nodePath
  | .loop _ snodes => snodes.findSome? Tree.nodePath

/-- The outermost key of a loop node as the last check reads it, and the names in it. -/
def Tree.outerKey : Tree κ → Option (List ℕ × List String)
  | .node _ => none
  | .loop count snodes => do
    let first ← snodes.head?
    let gid ← first.loopGroupId
    return (gid.take 1, (Tree.loop count snodes).leaves.map Node.name)

/-- One step of the last check : a key that has been seen under another name is an error. -/
def checkOuterKey (seen : List (List ℕ × List String)) (k : List ℕ × List String) :
    Except String (List (List ℕ × List String)) := do
  guardE ((seen.lookup k.1).getD k.2 = k.2) "Loop group is not contiguous"
  return k :: seen

/-- `build_loop_scheduler_nodes`. -/
def buildLoopSchedulerNodes (nodes : List (Node κ)) : Except String (List (Tree κ)) := do
  let nodes ← regroupByOuterLoopKey nodes
  let result ← buildLoopGroup ((nodes.map fun n => n.levels.length).foldr max 0 + 1) 0 nodes
  let _ ← foldE checkOuterKey [] (result.filterMap Tree.outerKey)
  return result

end Scheduling

end TorchSpyre
