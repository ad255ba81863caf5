import Mathlib
import TorchSpyre.Buffer
import TorchSpyre.Unroll

/-!
# Lifetimes of buffers used in counted loops

`scratchpad/utils.py`. The graph holds one textual copy of every loop body.
`calculateLiveness` lists the operations that touch a buffer. A value that was born outside a
loop and is read inside is read again on the next iteration, so
`countedLoopLifetimeOverrides` widens its lifetime to the whole loop. The two bounds are
decided on their own, from the outermost loop of the reader that does not hold the first
write.

Dictionaries are partial functions.
-/

namespace TorchSpyre

open Unroll

/-- An operation, with the names of the buffers it reads and writes. -/
structure Operation where
  name : String
  externKernel : Bool := false
  loopGroupId : List ℕ := []
  reads : List String
  writes : List String
deriving DecidableEq

/-- The operations of a graph in order. -/
structure Graph where
  graphInputNames : List String
  operations : List Operation
deriving DecidableEq

/-- The counted loops an operation runs in, outermost first. An extern kernel keeps its loop
info but runs once, outside. -/
def countedLoopGroupPath (op : Operation) : List ℕ :=
  if op.externKernel then [] else op.loopGroupId

/-- The operation reads or writes the buffer. -/
def Operation.accesses (op : Operation) (name : String) : Bool :=
  decide (name ∈ op.reads) || decide (name ∈ op.writes)

namespace Graph

variable (g : Graph)

/-- Operation `i` reads the buffer. -/
def readsAt (i : ℕ) (name : String) : Bool :=
  g.operations[i]?.any fun op => decide (name ∈ op.reads)

/-- Operation `i` writes the buffer. -/
def writesAt (i : ℕ) (name : String) : Bool :=
  g.operations[i]?.any fun op => decide (name ∈ op.writes)

/-- Operation `i` reads or writes the buffer. -/
def accessesAt (i : ℕ) (name : String) : Bool :=
  g.operations[i]?.any fun op => op.accesses name

/-- The program the graph stands for. -/
def code : List (ℕ × List ℕ) :=
  g.operations.zipIdx.map fun p => (p.2, countedLoopGroupPath p.1)

end Graph

/-! ## Liveness -/

/-- Append an operation to the uses of a buffer, unless it is there already. -/
def recordUse (i : ℕ) (liveness : String → Option (List ℕ)) (name : String) :
    String → Option (List ℕ) :=
  let uses := (liveness name).getD []
  Function.update liveness name (some (if uses.getLast? = some i then uses else uses ++ [i]))

/-- The operations at which each buffer is accessed. Graph inputs are seeded with none. -/
def calculateLiveness (g : Graph) : String → Option (List ℕ) :=
  g.operations.zipIdx.foldl (fun liveness p =>
      (p.1.reads ++ p.1.writes).foldl (recordUse p.2) liveness)
    fun name => if name ∈ g.graphInputNames then some [] else none

/-! ## Overrides -/

section Dict

variable {κ β : Type} [DecidableEq κ]

/-- Enter a value unless the key has one. -/
def setDefault (d : κ → Option β) (k : κ) (v : β) : κ → Option β :=
  Function.update d k (some ((d k).getD v))

end Dict

/-- What the first pass over the operations collects. -/
structure Facts where
  loopStart : List ℕ → Option ℕ
  loopEnd : List ℕ → Option ℕ
  birthGroup : String → Option (List ℕ)
  firstAccess : String → Option ℕ
  lastAccess : String → Option ℕ

namespace Facts

/-- Record that a loop runs at `index`. -/
def visitLoop (index : ℕ) (f : Facts) (loop : List ℕ) : Facts :=
  { f with
    loopStart := setDefault f.loopStart loop index
    loopEnd := Function.update f.loopEnd loop (some index) }

/-- Record an access. `birth` is the group the buffer is born in, if this is the first one. -/
def visitAccess (index : ℕ) (birth : List ℕ) (f : Facts) (name : String) : Facts :=
  { f with
    birthGroup := setDefault f.birthGroup name birth
    firstAccess := setDefault f.firstAccess name index
    lastAccess := Function.update f.lastAccess name (some index) }

/-- Record the loops and the accesses of an operation. -/
def visit (f : Facts) (p : Operation × ℕ) : Facts :=
  let path := countedLoopGroupPath p.1
  p.1.reads.foldl (visitAccess p.2 [])
    (p.1.writes.foldl (visitAccess p.2 path)
      (((List.range path.length).map fun d => path.take (d + 1)).foldl (visitLoop p.2) f))

end Facts

/-- What a pass over the graph records. -/
def facts (g : Graph) : Facts :=
  g.operations.zipIdx.foldl Facts.visit
    ⟨fun _ => none, fun _ => none,
      fun name => if name ∈ g.graphInputNames then some [] else none, fun _ => none, fun _ => none⟩

/-- The ticks that replace the first and the last use. -/
structure Overrides where
  start : String → Option ℕ
  stop : String → Option ℕ

/-- Lower the start of a buffer to that of a loop, if the loop starts before its accesses. -/
def lowerStart (start firstAccess : ℕ) (overrides : String → Option ℕ) (name : String) :
    String → Option ℕ :=
  if start < firstAccess then
    Function.update overrides name (some (min ((overrides name).getD start) start))
  else overrides

/-- Raise the end of a buffer to that of a loop, if the loop ends after its accesses. -/
def raiseEnd (stop lastAccess : ℕ) (overrides : String → Option ℕ) (name : String) :
    String → Option ℕ :=
  if lastAccess + 1 < stop then
    Function.update overrides name (some (max ((overrides name).getD 0) stop))
  else overrides

/-- Widen the lifetime of a buffer for one read of it. The loop is one the reader is in, so
the first pass has entered it. -/
def widen (f : Facts) (index : ℕ) (consumerPath : List ℕ) (o : Overrides) (name : String) :
    Overrides :=
  let producerPath := (f.birthGroup name).getD []
  let shared := (common producerPath consumerPath).length
  if shared = consumerPath.length then o
  else
    let enclosingLoop := consumerPath.take (shared + 1)
    let start := (f.loopStart enclosingLoop).getD 0
    let stop := (f.loopEnd enclosingLoop).getD 0 + 1
    { start := lowerStart start ((f.firstAccess name).getD index) o.start name
      stop := raiseEnd stop ((f.lastAccess name).getD index) o.stop name }

/-- Lifetime bounds for values reused by counted loops. -/
def countedLoopLifetimeOverrides (g : Graph) : Overrides :=
  g.operations.zipIdx.foldl (fun o p =>
      let consumerPath := countedLoopGroupPath p.1
      if consumerPath = [] then o else p.1.reads.foldl (widen (facts g) p.2 consumerPath) o)
    ⟨fun _ => none, fun _ => none⟩

/-- The buffer the allocator builds for a name that is used. -/
def boundBuffer (g : Graph) (name : String) (size : ℕ) : Option LifetimeBoundBuffer :=
  let uses := ((calculateLiveness g name).getD []).map Int.ofNat
  if h : uses ≠ [] ∧ uses.Pairwise (· < ·) then
    some {
      name := name
      size := size
      uses := uses
      firstUseIsRead := decide (name ∈ g.graphInputNames)
      lifetimeStartOverride := ((countedLoopLifetimeOverrides g).start name).map Int.ofNat
      lifetimeEndOverride := ((countedLoopLifetimeOverrides g).stop name).map Int.ofNat
      uses_ne := h.1
      uses_increasing := h.2 }
  else none

end TorchSpyre
