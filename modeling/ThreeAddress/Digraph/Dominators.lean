import ThreeAddress.Digraph.Search

/-!
# Dominators

The dominators of every node that can be reached from an entry, by repeated
intersection.  All sets start full; a sweep visits the nodes in order and keeps
for each the nodes that dominate all its reachable predecessors, and the node
itself.  Sweeps repeat until one changes nothing.
-/

namespace ThreeAddress

/-- The dominator sets of the nodes that the entry reaches, and the number of
sweeps that it took to find them. -/
structure Dominators where
  entry : NodeId
  sets : Array (Option BitSet)
  sweeps : Nat
deriving DecidableEq, Repr

namespace Dominators

variable {ν ε : Type}

/-- The sets before the first sweep: the entry is dominated by itself alone, any
other reachable node by all reachable nodes. -/
def start (g : Digraph ν ε) (entry : NodeId) : Array (Option BitSet) :=
  let live := g.reachable entry
  Array.ofFn fun node : Fin g.nodeCount =>
    if node.val = entry then
      some ((BitSet.empty g.nodeCount).insert entry)
    else if live.contains node.val then
      some live
    else
      none

/-- The set of a node, as its predecessors' sets determine it. -/
def refine
    (g : Digraph ν ε) (live : BitSet) (sets : Array (Option BitSet))
    (node : NodeId) : BitSet :=
  let known := (g.predecessors node).filterMap fun p => sets.getD p none
  (known.foldl BitSet.inter live).insert node

/-- Renews the set of one node.  The entry and nodes out of reach are left
alone. -/
def update
    (g : Digraph ν ε) (entry : NodeId) (live : BitSet)
    (sets : Array (Option BitSet)) (node : NodeId) : Array (Option BitSet) :=
  if node ≠ entry ∧ live.contains node = true then
    sets.setIfInBounds node (some (refine g live sets node))
  else
    sets

/-- Renews the sets of all nodes in order. -/
def sweep
    (g : Digraph ν ε) (entry : NodeId) (live : BitSet)
    (sets : Array (Option BitSet)) : Array (Option BitSet) :=
  (List.range g.nodeCount).foldl (update g entry live) sets

/-- Sweeps until nothing changes, at most `bound` times, and counts the
sweeps. -/
def settle
    (g : Digraph ν ε) (entry : NodeId) (live : BitSet) (bound : Nat)
    (sets : Array (Option BitSet)) (sweeps : Nat) :
    Array (Option BitSet) × Nat :=
  match bound with
  | 0 => (sets, sweeps)
  | bound + 1 =>
      let next := sweep g entry live sets
      if next = sets then
        (sets, sweeps + 1)
      else
        settle g entry live bound next (sweeps + 1)

/-- The dominators of a graph from an entry.  One sweep per node is enough. -/
def ofGraph (g : Digraph ν ε) (entry : NodeId) : Dominators :=
  if entry < g.nodeCount then
    let (sets, sweeps) :=
      settle g entry (g.reachable entry) g.nodeCount (start g entry) 0
    ⟨entry, sets, sweeps⟩
  else
    ⟨entry, Array.replicate g.nodeCount none, 0⟩

/-- The set of dominators of a node that can be reached. -/
def set? (d : Dominators) (node : NodeId) : Option BitSet :=
  d.sets.getD node none

/-- Whether the entry reaches a node. -/
def isReachable (d : Dominators) (node : NodeId) : Bool :=
  (d.set? node).isSome

/-- Whether `a` dominates `b`. -/
def dominates (d : Dominators) (a b : NodeId) : Bool :=
  (d.set? b).any fun s => s.contains a

/-- Whether `a` dominates `b` and differs from it. -/
def strictlyDominates (d : Dominators) (a b : NodeId) : Bool :=
  a != b && d.dominates a b

/-- The dominators of a node, in ascending order. -/
def dominatorsOf (d : Dominators) (node : NodeId) : List NodeId :=
  (d.set? node).elim [] BitSet.toList

/-- The number of dominators of a node. -/
def depth (d : Dominators) (node : NodeId) : Nat :=
  (d.set? node).elim 0 BitSet.count

/-- The strict dominator that has the most dominators itself. -/
def immediate? (d : Dominators) (node : NodeId) : Option NodeId :=
  ((d.dominatorsOf node).filter (· != node)).foldl
    (fun best a =>
      match best with
      | some b => if d.depth b ≤ d.depth a then some a else some b
      | none => some a)
    none

end Dominators

end ThreeAddress
