import OnnxFusion.Netlist.Basic
import OnnxFusion.Value.Json
import OnnxFusion.Model.Json
/-!
# JSON forms of a netlist

A tensor is written `{"name", "values"}` when it is a constant and
`{"name", "dtype", "shape"}` when it is a variable (unknown parts as `null`). A node is written
in full as `{"op", "name", "attrs", "inputs", "outputs"}` with its tensors in full, or by names
only as `{"op", "name", "inputs", "outputs"}`.
-/

set_option autoImplicit false

namespace OnnxFusion

namespace Netlist

/-- The JSON form of a tensor object. -/
def tensorJson (g : Netlist) (t : Nat) : Json :=
  let x := g.tensor t
  match x.payload with
  | .constant v => .obj [("name", .str x.name), ("values", v.toJson)]
  | .variable dtype shape =>
    .obj [("name", .str x.name), ("dtype", (dtype.map Json.str).getD .null),
      ("shape", (shape.map fun ds => Json.arr (ds.map Dim.toJson)).getD .null)]

/-- The full JSON form of a node. -/
def nodeJson (g : Netlist) (n : Nat) : Json :=
  let x := g.node n
  .obj [("op", .str x.op), ("name", .str x.name),
    ("attrs", .obj (x.attrs.map fun (k, v) => (k, v.toJson))),
    ("inputs", .arr (x.inputs.map g.tensorJson)), ("outputs", .arr (x.outputs.map g.tensorJson))]

/-- A node by the names of its tensors. -/
def nodeNamesJson (g : Netlist) (n : Nat) : Json :=
  let x := g.node n
  .obj [("op", .str x.op), ("name", .str x.name),
    ("inputs", .arr (x.inputs.map fun t => .str (g.tensor t).name)),
    ("outputs", .arr (x.outputs.map fun t => .str (g.tensor t).name))]

/-- The nodes, the first `kept` by names and the rest in full. -/
def nodesJson (g : Netlist) (kept : Nat) : Json :=
  .arr ((List.range g.nodes.size).map fun n => if n < kept then g.nodeNamesJson n else g.nodeJson n)

/-- The whole netlist: nodes in full, graph inputs and outputs. -/
def toJson (g : Netlist) : Json :=
  .obj [("nodes", .arr ((List.range g.nodes.size).map g.nodeJson)),
    ("inputs", .arr (g.inputs.map g.tensorJson)), ("outputs", .arr (g.outputs.map g.tensorJson))]

end Netlist

end OnnxFusion
