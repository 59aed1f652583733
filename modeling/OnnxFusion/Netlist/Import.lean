import OnnxFusion.Netlist.Basic
/-!
# Building a netlist from a model graph

One tensor object per tensor name. A name with an initializer is a constant holding the last
initializer of that name; any other name is a variable whose element type and shape are
those of the last declaration of the name among the graph inputs, graph outputs and
intermediate values, or unknown when there is none. Nodes are then appended in list order,
each linked to its tensors, with attribute texts decoded leniently.
-/

set_option autoImplicit false

namespace OnnxFusion

namespace Netlist

/-- Every tensor name of a graph, in first-mention order. -/
def namesOf (g : GraphDef) : List String :=
  let all := g.initializers.map (·.1) ++ (g.inputs ++ g.outputs ++ g.valueInfo).map (·.name) ++
    g.nodes.flatMap (fun n => n.inputs ++ n.outputs)
  all.eraseDups

/-- What the tensor of a name holds. -/
def payloadOf (g : GraphDef) (name : String) : Payload :=
  match (g.initializers.filter (·.1 == name)).getLast? with
  | some (_, t) => .constant (.array t)
  | none =>
    match ((g.inputs ++ g.outputs ++ g.valueInfo).filter (·.name == name)).getLast? with
    | some vi => .variable (some vi.dtype) vi.shape
    | none => .variable none none

/-- The index of the tensor of a name (names are those of `namesOf`). -/
def indexIn (names : List String) (name : String) : Nat := names.idxOf name

/-- The netlist of a model graph. -/
def ofGraphDef (g : GraphDef) : Netlist :=
  let names := namesOf g
  let base : Netlist :=
    { tensors := (names.map fun n => (⟨n, payloadOf g n, [], []⟩ : NetTensor)).toArray,
      nodes := #[],
      inputs := g.inputs.map fun vi => indexIn names vi.name,
      outputs := g.outputs.map fun vi => indexIn names vi.name }
  g.nodes.foldl (fun acc n =>
    (acc.addNode n.opType n.name n.attrsLenient (n.inputs.map (indexIn names))
      (n.outputs.map (indexIn names))).1) base

end Netlist

end OnnxFusion
