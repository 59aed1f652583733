import OnnxFusion.Fusion.Basic
/-!
# Fusing an attention block

The matched nodes are replaced by one `CustomFFAttn` node reading the query, key and value
tensors and the two sequence-length constants, and writing the output. Query, key and value
lose their matched consumers, in that order, and the output its matched producers. The
constants are `<output>_seq_q_tensor` and `<output>_seq_k_tensor`; the node is
`<output>_customattn`.
-/

set_option autoImplicit false

namespace OnnxFusion

namespace Fusion

/-- What an attention fusion adds once the matched nodes are unlinked: the query, key, value
and output tensors and the two sequence-length values. -/
structure AttentionPlan where
  q : Nat
  k : Nat
  v : Nat
  output : Nat
  seqQ : Value
  seqK : Value

/-- Finds query, key, value and output and unlinks the matched nodes from them. -/
def attentionPrepare (r : Replacement) : Edit AttentionPlan := do
  let qName ← item r.inputs 0
  let kName ← item r.inputs 1
  let vName ← item r.inputs 2
  let seqQ ← item r.inputs 3
  let seqK ← item r.inputs 4
  let outputName ← item r.outputs 0
  let table := (← get).tensorMap
  let q? ← lookupIn table qName
  let k? ← lookupIn table kName
  let v? ← lookupIn table vName
  let output? ← lookupIn table outputName
  let q ← detach q? .consumers r.nodeNames
  let k ← detach k? .consumers r.nodeNames
  let v ← detach v? .consumers r.nodeNames
  let output ← detach output? .producers r.nodeNames
  pure { q, k, v, output, seqQ, seqK }

/-- Adds the two sequence-length constants and the attention node. -/
def attentionBuild (p : AttentionPlan) (g : Netlist) : Netlist :=
  let base := (g.tensor p.output).name
  let (g, seqQT) := g.addTensor (base ++ "_seq_q_tensor") (.constant p.seqQ)
  let (g, seqKT) := g.addTensor (base ++ "_seq_k_tensor") (.constant p.seqK)
  (g.addNode "CustomFFAttn" (base ++ "_customattn") [] [p.q, p.k, p.v, seqQT, seqKT] [p.output]).1

/-- Replaces a matched attention block by one node. -/
def attention (r : Replacement) : Edit Unit := do
  let p ← attentionPrepare r
  modify (attentionBuild p)

end Fusion

end OnnxFusion
