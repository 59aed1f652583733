import OnnxFusion.Netlist.Basic
import OnnxFusion.Text.Infix
/-!
# Finding nodes of a netlist

Node tables map names to node indices in first-seen order of the names; a later node of a
name replaces the index but keeps the name's place.
-/

set_option autoImplicit false

namespace OnnxFusion

namespace Netlist

/-- The table of the nodes that satisfy a test. -/
def nodeTable (g : Netlist) (keep : NetNode → Bool) : List (String × Nat) :=
  (List.range g.nodes.size).foldl (fun acc i =>
    let n := g.node i
    if !keep n then acc
    else if acc.any (·.1 == n.name) then acc.map fun (k, v) => if k == n.name then (k, i) else (k, v)
    else acc ++ [(n.name, i)]) []

/-- Every node by name. -/
def nodesByName (g : Netlist) : List (String × Nat) := g.nodeTable fun _ => true

/-- The nodes of an operator type by name. -/
def nodesOfOp (g : Netlist) (op : String) : List (String × Nat) := g.nodeTable (·.op == op)

/-- The first node of a name. -/
def nodeNamed? (g : Netlist) (name : String) : Option Nat :=
  (List.range g.nodes.size).find? fun i => (g.node i).name == name

/-- The nodes whose name contains a text, by name. -/
def nodesMatching (g : Netlist) (pat : String) : List (String × Nat) :=
  g.nodeTable fun n => Text.occursIn pat n.name

end Netlist

end OnnxFusion
