import OnnxFusion.Dataflow.Dict
import OnnxFusion.Dataflow.Graph
/-!
# The tables of the graph object

The graph object behind the dataflow view keeps three insertion-ordered dictionaries:

* `nodes`: every node under its identity, in the order the model lists them;
* `producers`: each output name with the nodes that list it among their outputs, a node once
  for every time it lists the name (`name_to_nodes`);
* `links`: the dependency digraph as networkx keeps it, a successor and a predecessor
  dictionary for every node, mapping each node linked to the tensor that labels the link.

Building walks the node list twice. The first walk enters each node in `nodes`, in the
digraph, and under each of its outputs in `producers`. The second walks the node table and,
for each input of a node in turn, links every producer of that input to the node; a pair
linked twice keeps one link with the later tensor. Removing a node deletes it from the node
table, deletes it and its links from the digraph the way networkx does, and filters it out of
the producer lists of its outputs, deleting a list that becomes empty.

Questions go to the tables: the successors of a node are the keys of its successor
dictionary, the predecessors those of its predecessor dictionary, and the schedule is Kahn's
(`Graph.Schedule.sort`) over the digraph, falling back to the node table on a cycle.
-/

set_option autoImplicit false

namespace OnnxFusion.Dataflow

/-- A directed graph as networkx keeps it: for every node, in the order nodes were added, the
dictionary of its successors and the dictionary of its predecessors, each mapping the node at
the other end of a link to the link's tensor. -/
@[ext]
structure Digraph where
  succ : Dict Nat (Dict Nat String)
  pred : Dict Nat (Dict Nat String)

namespace Digraph

/-- The digraph without nodes. -/
def empty : Digraph := ⟨.empty, .empty⟩

/-- Adds a node without links; a node already there is left as it is. -/
def addNode (g : Digraph) (i : Nat) : Digraph :=
  if g.succ.contains i then g else ⟨g.succ.set i .empty, g.pred.set i .empty⟩

/-- Adds the link `u → v` with its tensor, adding either end first if it is missing; a link
already there takes the new tensor. -/
def addEdge (g : Digraph) (u v : Nat) (t : String) : Digraph :=
  let g := (g.addNode u).addNode v
  ⟨g.succ.modify u (·.set v t), g.pred.modify v (·.set u t)⟩

/-- Removes a node with every link into or out of it; a node not there changes nothing. -/
def removeNode (g : Digraph) (i : Nat) : Digraph :=
  match g.succ.get? i with
  | none => g
  | some out =>
    -- the links out of `i`, on the side of their other end
    let pred := out.keys.foldl (fun pred u => pred.modify u (·.erase i)) g.pred
    -- the links into `i`; a link of `i` to itself went with the first loop
    let into := ((pred.get? i).map Dict.keys).getD []
    let succ := into.foldl (fun succ u => succ.modify u (·.erase i)) (g.succ.erase i)
    ⟨succ, pred.erase i⟩

end Digraph

/-- The tables of the graph object: the node table, the producers of each output name, and
the dependency digraph over node identities. -/
structure Tables where
  nodes : Dict Nat Node
  producers : Dict String (List Node)
  links : Digraph

namespace Tables

/-- The tables of a graph without nodes. -/
def empty : Tables := ⟨.empty, .empty, .empty⟩

/-- Lists `n` as a producer of the output name `t`, after the producers listed so far. -/
def addProducer (n : Node) (w : Dict String (List Node)) (t : String) : Dict String (List Node) :=
  w.set t ((w.get? t).getD [] ++ [n])

/-- Enters a node: under its identity, in the digraph, and under each of its outputs. -/
def enter (s : Tables) (n : Node) : Tables :=
  { nodes := s.nodes.set n.index n,
    producers := n.outputs.foldl (addProducer n) s.producers,
    links := s.links.addNode n.index }

/-- Links every producer of the input `t` of `c` to `c`, in the order they are listed. -/
def linkInput (s : Tables) (c : Node) (g : Digraph) (t : String) : Digraph :=
  ((s.producers.get? t).getD []).foldl (fun g p => g.addEdge p.index c.index t) g

/-- Links the producers of each input of `c` to `c`, inputs in order. -/
def linkInputs (s : Tables) (c : Node) : Tables :=
  { s with links := c.inputs.foldl (s.linkInput c) s.links }

/-- Builds the tables: every node entered in list order, then every node of the node table
linked to the producers of its inputs. -/
def build (ns : List Node) : Tables :=
  let s := ns.foldl enter empty
  s.nodes.values.foldl linkInputs s

/-- The tables of a model; an attribute text that is not UTF-8 is a fault. -/
def ofDef (d : GraphDef) : Outcome Tables := do
  let ns ← nodesOf 0 d.nodes
  pure (build ns)

/-- Drops the node of identity `i` from the producers of the output name `t`, deleting the
entry when no producer is left; a name without an entry is left alone. -/
def dropProducer (i : Nat) (w : Dict String (List Node)) (t : String) : Dict String (List Node) :=
  match w.get? t with
  | some ps =>
    let rest := ps.filter (·.index != i)
    if rest.isEmpty then w.erase t else w.set t rest
  | none => w

/-- Removes a node from the three tables; a node not in the node table changes nothing. -/
def removeNode (s : Tables) (n : Node) : Tables :=
  if s.nodes.contains n.index then
    { nodes := s.nodes.erase n.index,
      producers := n.outputs.foldl (dropProducer n.index) s.producers,
      links := s.links.removeNode n.index }
  else s

/-- The nodes of a list of identities, skipping an identity without a node. -/
def nodesAt (s : Tables) (ids : List Nat) : List Node := ids.filterMap s.nodes.get?

/-- The successors of a node, in the order of its successor dictionary; a node not in the
digraph is a fault. -/
def successors (s : Tables) (n : Node) : Outcome (List Node) :=
  match s.links.succ.get? n.index with
  | some out => .ok (s.nodesAt out.keys)
  | none => .error (.nodeNotInGraph n.index)

/-- The predecessors of a node, in the order of its predecessor dictionary; a node not in the
digraph is a fault. -/
def predecessors (s : Tables) (n : Node) : Outcome (List Node) :=
  match s.links.pred.get? n.index with
  | some into => .ok (s.nodesAt into.keys)
  | none => .error (.nodeNotInGraph n.index)

/-- The successors the schedule visits: none for a node not in the digraph. -/
def scheduleSuccs (s : Tables) (n : Node) : List Node :=
  s.nodesAt (((s.links.succ.get? n.index).map Dict.keys).getD [])

/-- The number of links into a node. -/
def inDegree (s : Tables) (n : Node) : Nat := ((s.links.pred.get? n.index).map Dict.size).getD 0

/-- Kahn's order of the digraph's nodes, or the node table when there is a cycle. -/
def topologicalSort (s : Tables) : List Node :=
  (Graph.Schedule.sort (s.nodesAt s.links.succ.keys) s.scheduleSuccs s.inDegree).getD
    s.nodes.values

end Tables

end OnnxFusion.Dataflow
