import Mathlib.Data.Fintype.Card

/-!
# Util/DependencyWalker — evaluating a dependency graph in a safe order

The walk is Tarjan's algorithm for strongly connected components, with two twists.  The indices are
fields of the nodes and stay there when a walk ends, while each walk starts to count at 1 again; and
nodes that are evaluated are skipped, whatever their index is.

The callbacks mark the nodes they are given as evaluated; `evaluations` records their calls.  `none`
is an exception, or not enough fuel: each nested call visits a new node, so the number of nodes will
do.
-/

namespace DependencyWalker

variable {V : Type}

/-- A call of one of the callbacks. -/
inductive Evaluation (V : Type) where
  | evaluate (node : V)
  | evaluateScc (scc : List V)

/-- The nodes of a call. -/
def Evaluation.nodes : Evaluation V → List V
  | evaluate node => [node]
  | evaluateScc scc => scc

/-- The fields of the nodes, the local variables of a walk, and the calls of the callbacks.  The
last node of the stack is the head of the list. -/
structure State (V : Type) where
  index : V → ℕ
  lowLink : V → ℕ
  isEvaluated : V → Bool
  nextIndex : ℕ
  stack : List V
  evaluations : List (Evaluation V)

/-- Nodes that no walk has seen. -/
def State.new : State V := ⟨fun _ => 0, fun _ => 0, fun _ => false, 1, [], []⟩

variable [DecidableEq V]

namespace State

/-- The node gets the next index, and it is the last of the stack. -/
def visit (s : State V) (node : V) : State V :=
  { s with
    index := Function.update s.index node s.nextIndex
    lowLink := Function.update s.lowLink node s.nextIndex
    nextIndex := s.nextIndex + 1
    stack := node :: s.stack }

/-- A smaller low link replaces that of the node. -/
def lower (s : State V) (node : V) (lowLink : ℕ) : State V :=
  if lowLink < s.lowLink node then { s with lowLink := Function.update s.lowLink node lowLink }
    else s

/-- A callback. -/
def call (s : State V) (evaluation : Evaluation V) : State V :=
  { s with
    isEvaluated := fun v => s.isEvaluated v || evaluation.nodes.contains v
    evaluations := s.evaluations ++ [evaluation] }

end State

/-- The loop that pops a component from the stack: the component, and the stack. -/
def popScc (node : V) : List V → Option (List V × List V)
  | [] => none
  | otherNode :: stack =>
    if otherNode = node then some ([otherNode], stack)
    else (popScc node stack).map fun (scc, stack) => (otherNode :: scc, stack)

/-- The end of `strongConnect`: a node whose low link is its index ends a component. -/
def finish (node : V) (hasTrivialCycle : Bool) (s : State V) : Option (State V) :=
  if s.lowLink node = s.index node then
    match s.stack with
    | [] => none
    | last :: stack =>
      if last = node then
        some (State.call { s with stack }
          (if hasTrivialCycle then .evaluateScc [node] else .evaluate node))
      else (popScc node s.stack).map fun (scc, stack) => State.call { s with stack }
        (.evaluateScc scc)
  else some s

/-- One dependency of a node. -/
def considerDependency (strongConnect : V → State V → Option (State V)) (node : V)
    (hasTrivialCycle : Bool) (s : State V) (dependency : V) : Option (Bool × State V) :=
  if s.isEvaluated dependency then some (hasTrivialCycle, s)
  else if node = dependency then some (true, s)
  else if s.index dependency = 0 then
    (strongConnect dependency s).map fun s =>
      (hasTrivialCycle, s.lower node (s.lowLink dependency))
  else some (hasTrivialCycle, s.lower node (s.index dependency))

/-- The loop over the dependencies of a node. -/
def considerDependencies (strongConnect : V → State V → Option (State V)) (node : V) :
    List V → Bool → State V → Option (Bool × State V)
  | [], hasTrivialCycle, s => some (hasTrivialCycle, s)
  | dependency :: dependencies, hasTrivialCycle, s =>
    (considerDependency strongConnect node hasTrivialCycle s dependency).bind
      fun (hasTrivialCycle, s) =>
        considerDependencies strongConnect node dependencies hasTrivialCycle s

variable (dependencies : V → List V)

/-- `strongConnect`: a node is numbered and pushed, its dependencies are considered, and a component
is popped at its root. -/
def strongConnect : ℕ → V → State V → Option (State V)
  | 0, _, _ => none
  | fuel + 1, node, s =>
    (considerDependencies (strongConnect fuel) node (dependencies node) false (s.visit node)).bind
      fun (hasTrivialCycle, s) => finish node hasTrivialCycle s

variable [Fintype V]

/-- `walk`: a depth-first search from the starting point. -/
def walk (startingPoint : V) (s : State V) : Option (State V) :=
  let s := { s with nextIndex := 1, stack := [], evaluations := [] }
  if s.isEvaluated startingPoint then some s
  else strongConnect dependencies (Fintype.card V) startingPoint s

/-- Several walks, one after the other. -/
def walks : List V → State V → Option (State V)
  | [], s => some s
  | startingPoint :: startingPoints, s =>
    (walk dependencies startingPoint s).bind (walks startingPoints)

end DependencyWalker
