import OnnxFusion.Model.Basic
/-!
# The dataflow view of a model

Nodes are linked by tensor names: a node `p` precedes a node `c` when `c` reads a tensor
that `p` writes (possibly `p = c`). Two nodes are linked at most once, however many tensors
join them. Orders are those of the model's node list:

* the successors of `p` are its consumers in node-list order;
* the predecessors of `c` are ordered by the first input of `c` that links them, and the
  producers of one tensor by node-list order;
* an edge is labelled with the last input of the consumer that the producer writes.

Removing a node drops it and its links; everything else is computed from the nodes that
remain, so a graph with nodes removed answers exactly as one built without them.

The schedule is Kahn's algorithm by generations: the nodes without predecessors in list
order, then the nodes whose last predecessor was just emitted, in the order the emitted
nodes and their successors are visited. If some node is never emitted (a cycle), the
schedule is the node list itself. `Schedule.sort` takes the nodes, their successors and their
in-degrees as arguments, so the tables of the graph object schedule with it too.
-/

set_option autoImplicit false

namespace OnnxFusion.Dataflow

/-- A node of the dataflow view; `index` is its position in the model's node list. -/
structure Node where
  index : Nat
  name : String
  opType : String
  inputs : List String
  outputs : List String
  attrs : Record
  deriving Inhabited

namespace Node

/-- The view of the `i`-th node of a model; an attribute text that is not UTF-8 is a fault. -/
def ofDef (i : Nat) (d : NodeDef) : Outcome Node := do
  let attrs ← d.attrs
  pure { index := i, name := d.name, opType := d.opType, inputs := d.inputs,
         outputs := d.outputs, attrs }

/-- Whether the node has the operator type. -/
def isOp (n : Node) (op : String) : Bool := n.opType == op

/-- Whether `c` reads a tensor that `p` writes. -/
def feeds (p c : Node) : Bool := c.inputs.any (fun t => p.outputs.contains t)

/-- The attribute value under a name. -/
def attr? (n : Node) (k : String) : Option Value := n.attrs.get? k

end Node

/-- The only node of a list, when there is exactly one and it has the operator type. -/
def soleOp? (ns : List Node) (op : String) : Option Node :=
  match ns with
  | [n] => if n.isOp op then some n else none
  | _ => none

/-- The first element of a list; an empty list is a fault. -/
def first {α : Type} : List α → Outcome α
  | x :: _ => .ok x
  | [] => .error .indexOutOfRange

/-- The dataflow view: all nodes of the model, the indices removed so far, the
initializers and the table of declared shapes. -/
structure Graph where
  nodes : List Node
  removed : List Nat
  initializers : List (String × Tensor)
  shapes : List (String × List Dim)
  deriving Inhabited

/-- Builds the table of declared shapes: inputs, then outputs, then intermediate values, a
later entry replacing an earlier one in its place; no shape reads as the empty list. -/
def shapeTable (g : GraphDef) : List (String × List Dim) :=
  (g.inputs ++ g.outputs ++ g.valueInfo).foldl
    (fun acc vi =>
      let s := vi.shape.getD []
      if acc.any (·.1 == vi.name) then acc.map (fun (k, v) => if k == vi.name then (k, s) else (k, v))
      else acc ++ [(vi.name, s)]) []

/-- Builds the views of a list of node definitions, numbering them from `i`. -/
def nodesOf : Nat → List NodeDef → Outcome (List Node)
  | _, [] => .ok []
  | i, d :: rest => do
    let n ← Node.ofDef i d
    let ns ← nodesOf (i + 1) rest
    pure (n :: ns)

namespace Graph

/-- The dataflow view of a model graph. -/
def ofDef (g : GraphDef) : Outcome Graph := do
  let nodes ← nodesOf 0 g.nodes
  pure { nodes, removed := [], initializers := g.initializers, shapes := shapeTable g }

/-- Whether a node is still in the graph. -/
def isLive (g : Graph) (i : Nat) : Bool := !g.removed.contains i && i < g.nodes.length

/-- The nodes still in the graph, in list order. -/
def live (g : Graph) : List Node := g.nodes.filter (fun n => !g.removed.contains n.index)

/-- The node with an index, removed or not. -/
def node? (g : Graph) (i : Nat) : Option Node := g.nodes.find? (·.index == i)

/-- The nodes that write a tensor, in list order. -/
def producers (g : Graph) (t : String) : List Node := g.live.filter (·.outputs.contains t)

/-- Keeps the first node of each index. -/
def dedup : List Node → List Node → List Node
  | [], acc => acc.reverse
  | n :: rest, acc => if acc.any (·.index == n.index) then dedup rest acc else dedup rest (n :: acc)

/-- The consumers of a node, in list order (the node must be live). -/
def succs (g : Graph) (p : Node) : List Node := g.live.filter (fun c => p.feeds c)

/-- The producers of a node's inputs, by first linking input (the node must be live). -/
def preds (g : Graph) (c : Node) : List Node := dedup (c.inputs.flatMap g.producers) []

/-- The successors of a node; a removed node is a fault. -/
def successors (g : Graph) (n : Node) : Outcome (List Node) :=
  if g.isLive n.index then .ok (g.succs n) else .error (.nodeNotInGraph n.index)

/-- The predecessors of a node; a removed node is a fault. -/
def predecessors (g : Graph) (n : Node) : Outcome (List Node) :=
  if g.isLive n.index then .ok (g.preds n) else .error (.nodeNotInGraph n.index)

/-- The live nodes of an operator type. -/
def ofOpType (g : Graph) (op : String) : List Node := g.live.filter (·.isOp op)

/-- The last input of `c` that `p` writes: the label of the link `p → c`. -/
def linkTensor (p c : Node) : String := ((c.inputs.filter (fun t => p.outputs.contains t)).getLast?).getD ""

/-- Every link as `(producer, consumer, tensor)`, producers in list order, then consumers. -/
def edges (g : Graph) : List (Nat × Nat × String) :=
  g.live.flatMap fun p => (g.succs p).map fun c => (p.index, c.index, linkTensor p c)

/-- The number of linked pairs. -/
def edgeCount (g : Graph) : Nat := g.edges.length

/-- Removes a node; removing a removed node changes nothing. -/
def remove (g : Graph) (i : Nat) : Graph :=
  if g.isLive i then { g with removed := g.removed ++ [i] } else g

/-- The output names written by live nodes, sorted by name, each with its producers in list
order; a node that lists a name among its outputs more than once is listed as often. -/
def producerTable (g : Graph) : List (String × List Nat) :=
  let names := (g.live.flatMap (·.outputs)).eraseDups
  let sorted := names.mergeSort (fun a b => decide (a ≤ b))
  sorted.map fun t => (t, g.live.flatMap fun n => (n.outputs.filter (· == t)).map fun _ => n.index)

/-- The declared shape of a tensor. No declared shapes at all, or no entry for the name,
is a fault. -/
def shapeOf (g : Graph) (name : String) : Outcome (List Dim) :=
  if g.shapes.isEmpty then .error .noShapeInfo
  else
    match g.shapes.find? (·.1 == name) with
    | some (_, s) => .ok s
    | none => .error (.missingKey name)

/-- The first initializer of a name, cast to an element type. -/
def initializerAs (g : Graph) (name : String) (dtype : DType) : Option Tensor :=
  (g.initializers.find? (·.1 == name)).map fun (_, t) => t.astype dtype

/-- The first initializer of a name as float32. -/
def initializer? (g : Graph) (name : String) : Option Tensor := g.initializerAs name .float32

/-- Whether a tensor is an initializer. -/
def isConstant (g : Graph) (name : String) : Bool := (g.initializer? name).isSome

/-- The text the graph is shown as. -/
def describe (g : Graph) : String :=
  "ONNXGraph(nodes=" ++ toString g.live.length ++ ", edges=" ++ toString g.edgeCount ++ ")"

/-! ### Kahn's schedule -/

/-- The state of the schedule: nodes emitted, in-degrees of nodes not yet ready, and the
generation about to be emitted. -/
structure Schedule where
  emitted : List Node
  waiting : List (Nat × Nat)
  frontier : List Node

/-- One link `p → child` is used up: lowers the child's count and makes it ready at zero. -/
def release (waiting : List (Nat × Nat)) (ready : List Node) (child : Node) :
    List (Nat × Nat) × List Node :=
  match waiting.find? (·.1 == child.index) with
  | some (_, d) =>
    if d ≤ 1 then (waiting.filter (·.1 != child.index), ready ++ [child])
    else (waiting.map (fun (k, v) => if k == child.index then (k, v - 1) else (k, v)), ready)
  | none => (waiting, ready)

/-- Emits the frontier and collects the next generation, visiting the successors of each
emitted node in the order `succs` lists them. -/
def Schedule.step (succs : Node → List Node) (s : Schedule) : Schedule :=
  let (waiting, next) := s.frontier.foldl
    (fun acc p => (succs p).foldl (fun acc' c => release acc'.1 acc'.2 c) acc)
    (s.waiting, [])
  { emitted := s.emitted ++ s.frontier, waiting, frontier := next }

/-- Runs the schedule for at most `fuel` generations. -/
def Schedule.run (succs : Node → List Node) : Nat → Schedule → Schedule
  | 0, s => s
  | fuel + 1, s => if s.frontier.isEmpty then s else Schedule.run succs fuel (Schedule.step succs s)

/-- The starting state: every node of `order` with its in-degree. -/
def Schedule.start (order : List Node) (inDegree : Node → Nat) : Schedule :=
  let counted := order.map fun n => (n, inDegree n)
  { emitted := [], waiting := (counted.filter (·.2 > 0)).map (fun (n, d) => (n.index, d)),
    frontier := (counted.filter (·.2 == 0)).map (·.1) }

/-- Kahn's order of the nodes of `order`, generation by generation; `none` when some node is
never emitted, which is a cycle. -/
def Schedule.sort (order : List Node) (succs : Node → List Node) (inDegree : Node → Nat) :
    Option (List Node) :=
  let s := Schedule.run succs (order.length + 1) (Schedule.start order inDegree)
  if s.waiting.isEmpty && s.frontier.isEmpty then some s.emitted else none

/-- The number of distinct predecessors of a node. -/
def inDegree (g : Graph) (n : Node) : Nat := (g.preds n).length

/-- The topological order of the live nodes, or the node list when there is a cycle. -/
def topoOrder (g : Graph) : List Node := (Schedule.sort g.live g.succs g.inDegree).getD g.live

end Graph

end OnnxFusion.Dataflow
