import OnnxFusion.Fusion.Basic
/-!
# Fusing a layer normalization

The matched nodes are replaced by one `NvLayerNormPlugin` node reading the input, a scale, a
bias and the epsilon, and writing the output. The input loses its matched consumers and the
output its matched producers. The scale and bias come from the replacement's inputs (a
missing one is the neutral float32 scalar 1 or 0); the epsilon is the `epsilon` attribute as
a float32 array. The three constants are named after the input: `<input>_ln_scale`,
`<input>_ln_bias`, `<input>_ln_eps`; the node is `<output>_LayerNorm`.
-/

set_option autoImplicit false

namespace OnnxFusion

namespace Fusion

/-- What a layer-normalization fusion adds once the matched nodes are unlinked: the input and
output tensors and the three constant values. -/
structure LayerNormPlan where
  input : Nat
  output : Nat
  scale : Value
  bias : Value
  epsilon : Tensor

/-- Finds the input and output, unlinks the matched nodes from them and reads the constants. -/
def layerNormPrepare (r : Replacement) : Edit LayerNormPlan := do
  let inputName ← item r.inputs 0
  let scale ← item r.inputs 1
  let bias ← item r.inputs 2
  let outputName ← item r.outputs 0
  let table := (← get).tensorMap
  let input? ← lookupIn table inputName
  let output? ← lookupIn table outputName
  let input ← detach input? .consumers r.nodeNames
  let output ← detach output? .producers r.nodeNames
  let scale := match scale with
    | .none => Value.array (Tensor.scalar .float32 (.real 1.0))
    | v => v
  let bias := match bias with
    | .none => Value.array (Tensor.scalar .float32 (.real 0.0))
    | v => v
  let some epsilon := r.attrs.get? "epsilon" | throw (.missingKey "epsilon")
  let epsilon ← floatArray .float32 epsilon
  pure { input, output, scale, bias, epsilon }

/-- Adds the scale, bias and epsilon constants and the plugin node. -/
def layerNormBuild (p : LayerNormPlan) (g : Netlist) : Netlist :=
  let base := (g.tensor p.input).name
  let (g, scaleT) := g.addTensor (base ++ "_ln_scale") (.constant p.scale)
  let (g, biasT) := g.addTensor (base ++ "_ln_bias") (.constant p.bias)
  let (g, epsT) := g.addTensor (base ++ "_ln_eps") (.constant (.array p.epsilon))
  (g.addNode "NvLayerNormPlugin" ((g.tensor p.output).name ++ "_LayerNorm") []
    [p.input, scaleT, biasT, epsT] [p.output]).1

/-- Replaces a matched layer normalization by one plugin node. -/
def layerNorm (r : Replacement) : Edit Unit := do
  let p ← layerNormPrepare r
  modify (layerNormBuild p)

end Fusion

end OnnxFusion
