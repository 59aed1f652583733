import OnnxFusion.Dataflow.Graph
import OnnxFusion.Value.Json
/-!
# Matches

A match names the pattern that found it, the matched nodes in the pattern's own order, the
inputs and outputs of the subgraph that one fused node would replace, and attributes for
that node. An input is a tensor name or a constant array computed by the pattern.
-/

set_option autoImplicit false

namespace OnnxFusion

/-- A matched subgraph. -/
structure Match where
  pattern : String
  nodes : List Dataflow.Node
  inputs : List Value
  outputs : List String
  attrs : Record
  deriving Inhabited

namespace Match

/-- The indices of the matched nodes. -/
def indices (m : Match) : List Nat := m.nodes.map (·.index)

/-- The names of the matched nodes, sorted and without repeats. -/
def nodeNames (m : Match) : List String :=
  ((m.nodes.map (·.name)).eraseDups).mergeSort (fun a b => decide (a ≤ b))

/-- Whether a node name is one of the matched nodes' names. -/
def hasName (m : Match) (name : String) : Bool := m.nodes.any (·.name == name)

/-- Whether two matches share a node. -/
def overlaps (m : Match) (claimed : List Nat) : Bool := m.indices.any claimed.contains

/-- The text a match is shown as, with node identities given by `ident`. -/
def describe (m : Match) (ident : Nat → String) : String :=
  "MatchResult(pattern=" ++ m.pattern ++ ", nodes=[" ++ ", ".intercalate (m.indices.map ident) ++ "])"

/-- The JSON form of a match. -/
def toJson (m : Match) : Json :=
  .obj [("pattern", .str m.pattern),
    ("nodes", .arr (m.indices.map (fun (i : Nat) => Json.int (Int.ofNat i)))),
    ("node_names", .arr (m.nodeNames.map .str)),
    ("inputs", .arr (m.inputs.map Value.toJson)),
    ("outputs", .arr (m.outputs.map .str)),
    ("attrs", .obj (m.attrs.map fun (k, v) => (k, v.toJson)))]

end Match

end OnnxFusion
