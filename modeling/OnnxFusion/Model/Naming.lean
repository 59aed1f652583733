import OnnxFusion.Model.Basic
/-!
# Naming unnamed nodes

Every node without a name gets `<op_type>_<k>`. The counter `k` starts at the number of
distinct names in the model (the empty name counted), is shared by all operator types, and
moves up only while the candidate is already taken; a name once given is taken from then on.
Named nodes keep their names.
-/

set_option autoImplicit false

namespace OnnxFusion

/-- The candidate name for an operator type and counter. -/
def candidateName (op : String) (k : Nat) : String := op ++ "_" ++ toString k

/-- The first counter from `k` whose candidate is not taken (at most `fuel` tries). -/
def freeCounter (op : String) (taken : List String) : Nat → Nat → Nat
  | 0, k => k
  | fuel + 1, k => if taken.contains (candidateName op k) then freeCounter op taken fuel (k + 1) else k

/-- Names the unnamed nodes of a list, threading the taken names and the counter. -/
def nameNodesFrom : List NodeDef → List String → Nat → List NodeDef
  | [], _, _ => []
  | n :: rest, taken, k =>
    if n.name.isEmpty then
      let k' := freeCounter n.opType taken (taken.length + 1) k
      let name := candidateName n.opType k'
      { n with name } :: nameNodesFrom rest (taken ++ [name]) k'
    else n :: nameNodesFrom rest taken k

/-- The nodes with every unnamed node named. -/
def nameNodes (nodes : List NodeDef) : List NodeDef :=
  let taken := (nodes.map (·.name)).eraseDups
  nameNodesFrom nodes taken taken.length

/-- The graph with every unnamed node named. -/
def GraphDef.withNames (g : GraphDef) : GraphDef := { g with nodes := nameNodes g.nodes }

end OnnxFusion
