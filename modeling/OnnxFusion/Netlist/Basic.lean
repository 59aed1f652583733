import OnnxFusion.Model.Basic
/-!
# Netlists: tensor objects and node objects

The graph that fusions edit. Tensors and nodes are objects kept in arrays and referred to
by index, so two tensors of one name are still two objects. A tensor is a variable (an
element type name and a shape, each possibly unknown) or a constant (a value). Every tensor
lists its producers and its consumers; every node lists the tensors it reads and writes.
The two sides of a link are edited together:

* appending a node links it to its tensors: the node joins the consumers of each input and
  the producers of each output, in order;
* `dropLink side t n` removes the first occurrence of `n` on that side of `t` (its consumers
  or its producers) and the first occurrence of `t` on the matching side of `n` (its inputs
  or its outputs);
* `setInput n i t` unlinks the old `i`-th input of `n` and links `t` in its place;
* `insertInput n i t` puts `t` among the inputs of `n` at position `i` and links it.

Graph inputs and outputs are plain lists of tensor indices. Looking a name up goes through
`tensorMap`: the first tensor of each name met in the order graph inputs, graph outputs,
then the inputs and outputs of each node in list order; a tensor no longer reachable that
way cannot be found by name.
-/

set_option autoImplicit false

namespace OnnxFusion

/-- What a tensor object holds. -/
inductive Payload where
  | variable (dtype : Option String) (shape : Option (List Dim))
  | constant (values : Value)
  deriving Inhabited

/-- A tensor object. -/
structure NetTensor where
  name : String
  payload : Payload
  producers : List Nat
  consumers : List Nat
  deriving Inhabited

/-- A node object. -/
structure NetNode where
  op : String
  name : String
  attrs : Record
  inputs : List Nat
  outputs : List Nat
  deriving Inhabited

/-- The two sides of a link between a tensor and a node: the tensor's consumers, which read
it (it is among their inputs), or its producers, which write it (among their outputs). -/
inductive Side where
  | consumers
  | producers
  deriving DecidableEq, Inhabited

/-- The nodes on one side of a tensor. -/
def NetTensor.links (x : NetTensor) : Side → List Nat
  | .consumers => x.consumers
  | .producers => x.producers

/-- Replaces the nodes on one side of a tensor. -/
def NetTensor.withLinks (x : NetTensor) : Side → List Nat → NetTensor
  | .consumers, ns => { x with consumers := ns }
  | .producers, ns => { x with producers := ns }

/-- The tensors a node has on one side of its links: its inputs as a consumer, its outputs
as a producer. -/
def NetNode.ends (x : NetNode) : Side → List Nat
  | .consumers => x.inputs
  | .producers => x.outputs

/-- Replaces the tensors a node has on one side. -/
def NetNode.withEnds (x : NetNode) : Side → List Nat → NetNode
  | .consumers, ts => { x with inputs := ts }
  | .producers, ts => { x with outputs := ts }

/-- An editable graph of tensor and node objects. -/
structure Netlist where
  tensors : Array NetTensor
  nodes : Array NetNode
  inputs : List Nat
  outputs : List Nat
  deriving Inhabited

/-- Removes the first occurrence of an element. -/
def eraseFirst (xs : List Nat) (x : Nat) : List Nat := xs.erase x

namespace Netlist

/-- The tensor object at an index. -/
def tensor (g : Netlist) (t : Nat) : NetTensor := g.tensors.getD t default

/-- The node object at an index. -/
def node (g : Netlist) (n : Nat) : NetNode := g.nodes.getD n default

/-- Replaces a tensor object. -/
def modifyTensor (g : Netlist) (t : Nat) (f : NetTensor → NetTensor) : Netlist :=
  { g with tensors := g.tensors.modify t f }

/-- Replaces a node object. -/
def modifyNode (g : Netlist) (n : Nat) (f : NetNode → NetNode) : Netlist :=
  { g with nodes := g.nodes.modify n f }

/-- Adds an unlinked tensor object and returns its index. -/
def addTensor (g : Netlist) (name : String) (p : Payload) : Netlist × Nat :=
  ({ g with tensors := g.tensors.push ⟨name, p, [], []⟩ }, g.tensors.size)

/-- Puts node `n` last on one side of tensor `t`, leaving the node as it is. -/
def linkTensor (g : Netlist) (side : Side) (t n : Nat) : Netlist :=
  g.modifyTensor t fun x => x.withLinks side (x.links side ++ [n])

/-- Appends a node reading `ins` and writing `outs`, linking both sides. -/
def addNode (g : Netlist) (op name : String) (attrs : Record) (ins outs : List Nat) : Netlist × Nat :=
  let n := g.nodes.size
  let g1 := { g with nodes := g.nodes.push ⟨op, name, attrs, ins, outs⟩ }
  let g2 := ins.foldl (fun acc t => acc.linkTensor .consumers t n) g1
  let g3 := outs.foldl (fun acc t => acc.linkTensor .producers t n) g2
  (g3, n)

/-- Unlinks node `n` from tensor `t` on one side (first occurrence on both sides). -/
def dropLink (g : Netlist) (side : Side) (t n : Nat) : Netlist :=
  let g1 := g.modifyTensor t fun x => x.withLinks side (eraseFirst (x.links side) n)
  g1.modifyNode n fun x => x.withEnds side (eraseFirst (x.ends side) t)

/-- Makes tensor `t` the `i`-th input of node `n`: the old input loses `n` as a consumer
(first occurrence) and `t` gains it. An index past the end is a fault. -/
def setInput (g : Netlist) (n i t : Nat) : Outcome Netlist :=
  match (g.node n).inputs[i]? with
  | none => .error .indexOutOfRange
  | some old =>
    let g1 := g.modifyTensor old fun x => { x with consumers := eraseFirst x.consumers n }
    let g2 := g1.modifyNode n fun x => { x with inputs := x.inputs.set i t }
    .ok (g2.modifyTensor t fun x => { x with consumers := x.consumers ++ [n] })

/-- Inserts tensor `t` among the inputs of node `n` at position `i` and links it. -/
def insertInput (g : Netlist) (n i t : Nat) : Netlist :=
  let g1 := g.modifyNode n fun x => { x with inputs := x.inputs.insertIdx i t }
  g1.modifyTensor t fun x => { x with consumers := x.consumers ++ [n] }

/-- Turns a tensor object into a variable in place. -/
def toVariable (g : Netlist) (t : Nat) (dtype : Option String) (shape : Option (List Dim)) : Netlist :=
  g.modifyTensor t fun x => { x with payload := .variable dtype shape }

/-- Renames a tensor object. -/
def rename (g : Netlist) (t : Nat) (name : String) : Netlist :=
  g.modifyTensor t fun x => { x with name }

/-- The tensors in lookup order: graph inputs, graph outputs, then each node's inputs and
outputs in list order. -/
def reachable (g : Netlist) : List Nat :=
  g.inputs ++ g.outputs ++ g.nodes.toList.flatMap (fun n => n.inputs ++ n.outputs)

/-- The first reachable tensor of each name. -/
def tensorMap (g : Netlist) : List (String × Nat) :=
  g.reachable.foldl (fun acc t =>
    let name := (g.tensor t).name
    if acc.any (·.1 == name) then acc else acc ++ [(name, t)]) []

/-- The tensor found under a name. -/
def find? (g : Netlist) (name : String) : Option Nat :=
  (g.tensorMap.find? (·.1 == name)).map (·.2)

end Netlist

end OnnxFusion
