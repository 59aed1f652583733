import OnnxFusion.Model.Basic
/-!
# Giving every use of an initializer its own copy

Each node input that names an initializer is renamed `<name>_node_<i>_input_<j>` (node `i`,
input `j`) and gets a copy of that initializer under the new name; the copies, in order of
use, replace all initializers, so unused ones are dropped. Of several initializers of one
name, the last is the one copied.
-/

set_option autoImplicit false

namespace OnnxFusion

namespace GraphDef

/-- The last initializer of a name. -/
def lastInitializer? (g : GraphDef) (name : String) : Option Tensor :=
  ((g.initializers.filter (·.1 == name)).getLast?).map (·.2)

/-- The graph with one private initializer per use. -/
def withPrivateInitializers (g : GraphDef) : GraphDef :=
  let step (acc : List NodeDef × List (String × Tensor)) (entry : Nat × NodeDef) :=
    let (i, n) := entry
    let renamed := n.inputs.zipIdx.map fun (name, j) =>
      match g.lastInitializer? name with
      | some t => (name ++ "_node_" ++ toString i ++ "_input_" ++ toString j, some t)
      | none => (name, none)
    let copies := renamed.filterMap fun (name, t?) => t?.map fun t => (name, t)
    (acc.1 ++ [{ n with inputs := renamed.map (·.1) }], acc.2 ++ copies)
  let (nodes, initializers) := g.nodes.zipIdx.map (fun (n, i) => (i, n)) |>.foldl step ([], [])
  { g with nodes, initializers }

end GraphDef

end OnnxFusion
