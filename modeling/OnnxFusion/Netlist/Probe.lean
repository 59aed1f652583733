import OnnxFusion.Netlist.Basic
import OnnxFusion.Value.Basic
/-!
# Exposing node outputs as graph outputs

To compare a model layer by layer, the first output of chosen nodes is renamed after its
node and added to the graph outputs (unless it is already one of them). Nodes are chosen by
name (a name list), or by the operator type of the nodes that feed them: a node is chosen
when one of its inputs is written by a node whose type is in the selector, and its name is
reported. Membership is that of `Value.holdsText`, so a text selector matches any type that
is part of it. Giving both selectors is refused; giving neither is a fault at the first node.
Outputs are added after all nodes are visited, in visiting order. Shape inference before,
and the cleanup, re-sort and model check around the edit, leave this netlist as it is and are
no steps here.
-/

set_option autoImplicit false

namespace OnnxFusion

namespace Netlist

/-- Whether some producer of some input of a node has an operator type in the selector; the
input tests stop at the first hit. -/
def fedBy (g : Netlist) (n : Nat) (opType : Value) : Outcome Bool :=
  (g.node n).inputs.foldlM (fun hit t =>
    if hit then pure true
    else (g.tensor t).producers.foldlM (fun found p =>
      if found then pure true else opType.holdsText (g.node p).op) false) false

/-- Renames the first output of a node after it and queues it to become a graph output. -/
def exposeFirstOutput (g : Netlist) (n : Nat) (queued : List Nat) : Outcome (Netlist × List Nat) := do
  let some out := (g.node n).outputs.head? | throw .indexOutOfRange
  let g := g.rename out (g.node n).name
  pure (g, if g.outputs.contains out then queued else queued ++ [out])

/-- Exposes node outputs; returns the netlist and the names of the nodes chosen by type. -/
def exposeOutputs (g : Netlist) (opType names : Value) : Outcome (Netlist × List String) := do
  if !opType.isFalsy && !names.isFalsy then throw .bothSelectors
  let step (acc : Netlist × List Nat × List String) (n : Nat) : Outcome (Netlist × List Nat × List String) := do
    let (g, queued, chosen) := acc
    if !names.isFalsy then
      if ← names.holdsText (g.node n).name then
        let (g, queued) ← exposeFirstOutput g n queued
        pure (g, queued, chosen)
      else pure acc
    else
      if opType.isFalsy then throw .checkFailed
      if ← g.fedBy n opType then
        let (g, queued) ← exposeFirstOutput g n queued
        pure (g, queued, chosen ++ [(g.node n).name])
      else pure acc
  let (g, queued, chosen) ← (List.range g.nodes.size).foldlM step (g, [], [])
  pure ({ g with outputs := g.outputs ++ queued }, chosen)

end Netlist

end OnnxFusion
