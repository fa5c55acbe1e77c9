import TimeMarch.Graph.Reach
import Std.Data.TreeMap

/-!
# Dependency Order

Nodes are listed so that each comes after the nodes it depends on. In every round one of the nodes
whose dependencies are all listed is taken, the one of lowest rank, and its dependents wait for one
node less. When no node is ready any more the rest, if there is any, waits in a circle.
-/

namespace TimeMarch.Graph

/-- Ready nodes are taken by rank, nodes of one rank by name. -/
def byRank (a b : Nat × String) : Ordering := (compare a.1 b.1).then (compare a.2 b.2)

/-- Put a node where its turn is among the ready ones. -/
def queue (a : Nat × String) : List (Nat × String) → List (Nat × String)
  | [] => [a]
  | b :: l => if (byRank a b).isLE then a :: b :: l else b :: queue a l

/-- For every node how many nodes it still waits for, the ready nodes in the order of their turns,
and the nodes listed so far, the last one first. -/
structure Progress where
  waiting : Std.TreeMap String Nat
  ready : List (Nat × String)
  listed : List String

/-- The nodes a node depends on, each once; other names do not count. -/
def dependenciesIn (nodes : Roll) (deps : String → List String) (node : String) : List String :=
  ((deps node).filter nodes.contains).eraseDups

/-- For every node the nodes that depend on it. -/
def dependents (nodes : Roll) (deps : String → List String) : Std.TreeMap String (List String) :=
  nodes.keys.foldl (fun m node =>
    (dependenciesIn nodes deps node).foldl (fun m d => m.insert d (node :: m.getD d [])) m) ∅

def Progress.start (nodes : Roll) (deps : String → List String) (rank : String → Nat) :
    Progress :=
  nodes.keys.foldl (fun p node =>
    let count := (dependenciesIn nodes deps node).length
    { p with
      waiting := p.waiting.insert node count
      ready := if count = 0 then queue (rank node, node) p.ready else p.ready })
    ⟨∅, [], []⟩

/-- One of the nodes that `node` waits for is listed. -/
def Progress.release (rank : String → Nat) (p : Progress) (node : String) : Progress :=
  let count := p.waiting.getD node 0 - 1
  { p with
    waiting := p.waiting.insert node count
    ready := if count = 0 then queue (rank node, node) p.ready else p.ready }

/-- List a node that is ready; `rest` are the other ready ones. -/
def Progress.take (after : Std.TreeMap String (List String)) (rank : String → Nat) (p : Progress)
    (node : String) (rest : List (Nat × String)) : Progress :=
  (after.getD node []).foldl (release rank) { p with ready := rest, listed := node :: p.listed }

/-- Go on for as many rounds as there are nodes, or until none is ready. -/
def Progress.run (after : Std.TreeMap String (List String)) (rank : String → Nat) :
    (rounds : Nat) → Progress → Progress
  | 0, p => p
  | rounds + 1, p =>
    match p.ready with
    | [] => p
    | (_, node) :: rest => run after rank rounds (p.take after rank node rest)

/-- The nodes in dependency order, or those that wait in vain, in the order of the nodes. -/
def order (nodes : Roll) (deps : String → List String) (rank : String → Nat) :
    Except (List String) (List String) :=
  let p := (Progress.start nodes deps rank).run (dependents nodes deps) rank nodes.size
  if p.listed.length = nodes.size then .ok p.listed.reverse
  else .error (nodes.keys.filter fun node => 0 < p.waiting.getD node 0)

end TimeMarch.Graph
