import OnnxFusion.Fusion.Basic
import OnnxFusion.Value.Text
/-!
# Folding a batch normalization into a transposed convolution

A transposed convolution with weight `W` (shape `[C_in, C_out / groups, kH, kW]`) and bias `B`
followed by a batch normalization with scale `γ`, mean `μ`, variance `σ²` and epsilon `ε`
becomes one transposed convolution with

* `s = γ / sqrt(σ² + ε)`,
* weight `W · s`, with `s` laid out as `[1, C_out, 1, 1]` after grouping it as
  `[groups, C_out / groups]`,
* bias `B · s + (B - μ · s)`, where a missing `B` is zeros of the weight's element type,

both cast back to the weight's element type. The normalization's own shift is read but takes
no part. The arithmetic is that of `Tensor/Arith`: element types promote, shapes broadcast,
and a shape that does not is a fault. The channel count must agree with the length of `γ` and
of `B`, else the fault names both.

The new constants are `<W>_fused` and `<B>_fused` (or `<conv>_bias_fused` without a bias);
the node is `<conv>_fused` with the convolution's attributes.
-/

set_option autoImplicit false

namespace OnnxFusion

namespace Fusion

/-- The channel count `perGroup * groups`, computed as plain values: a text or list group is
repeated, a float group gives a float. -/
def channels (perGroup : Nat) (groups : Value) : Outcome Value :=
  match groups with
  | .int g => .ok (.int (perGroup * g))
  | .bool b => .ok (.int (if b then perGroup else 0))
  | .float x => .ok (.float (Binary.binary64.ofInt perGroup * x))
  | .str s => .ok (.str (String.join (List.replicate perGroup s)))
  | .list vs => .ok (.list ((List.replicate perGroup vs).flatten))
  | v => .error (.unsupportedOperand "*" "int" v.typeName)

/-- The folded weight and bias, computed from the tensors as the netlist now holds them: the
weight, the normalization's four parameters (looked up by name) and the bias or zeros. -/
def foldBatchNorm (g : Netlist) (conv bn : Dataflow.Node) (weight? bias? : Option Nat) :
    Outcome (Tensor × Tensor) := do
  let weight ← valuesOf g weight?
  let groups := (conv.attr? "group").getD (.int 1)
  let perGroup ← dimAt (← shapeOf weight) 1
  let outChannels ← channels perGroup groups
  let scaleName ← item bn.inputs 1
  let shiftName ← item bn.inputs 2
  let meanName ← item bn.inputs 3
  let varName ← item bn.inputs 4
  let after := g.tensorMap
  let scaleT := (after.find? (·.1 == scaleName)).map (·.2)
  let shiftT := (after.find? (·.1 == shiftName)).map (·.2)
  let meanT := (after.find? (·.1 == meanName)).map (·.2)
  let varT := (after.find? (·.1 == varName)).map (·.2)
  let scale ← valuesOf g scaleT
  let _ ← valuesOf g shiftT
  let mean ← valuesOf g meanT
  let var ← valuesOf g varT
  let scaleLen ← dimAt (← shapeOf scale) 0
  if !Value.equals (.int scaleLen) outChannels then
    throw (.scaleChannels (toString scaleLen) outChannels.display)
  let epsilon := (bn.attr? "epsilon").getD (.float 0.00001)
  let weightType := (dtypeOf weight).getD .float32
  let bias ← match bias? with
    | none => do
      let dims ← Tensor.allocation weightType (← outChannels.shapeArgument)
      pure (Value.array (Tensor.filled weightType dims (.int 0)))
    | some _ => do
      let b ← valuesOf g bias?
      let biasLen ← dimAt (← shapeOf b) 0
      if !Value.equals (.int biasLen) outChannels then
        throw (.biasChannels (toString biasLen) outChannels.display)
      pure b
  let varOp ← operandOf .add .float32 false var
  let epsOp ← operandOf .add varOp.dtype true epsilon
  let denom := (← Operand.arith .add varOp epsOp).sqrt
  let scaleOp ← operandOf .div denom.dtype false scale
  let factor ← Operand.arith .div scaleOp denom
  let meanOp ← operandOf .mul factor.dtype false mean
  let biasOp ← operandOf .sub factor.dtype false bias
  let shift ← Operand.arith .sub biasOp (← Operand.arith .mul meanOp factor)
  let groupCount ← groups.dimension
  let grouped ← factor.asTensor.reshape [groupCount, Int.ofNat perGroup]
  let laidOut ← grouped.reshape [1, -1, 1, 1]
  let weightOp ← operandOf .mul laidOut.dtype false weight
  let newWeight ← Operand.arith .mul weightOp (.tensor laidOut)
  let newBias ← Operand.arith .add (← Operand.arith .mul biasOp factor) shift
  pure (newWeight.asTensor.astype weightType, newBias.asTensor.astype weightType)

/-- What the folding adds once the matched nodes are unlinked: the input, output, weight and
bias tensors, the convolution, and the folded weight and bias. -/
structure ConvPlan where
  input : Nat
  output : Nat
  weight : Nat
  bias? : Option Nat
  conv : Dataflow.Node
  newWeight : Tensor
  newBias : Tensor

/-- Finds the tensors, unlinks the matched nodes from input and output, and folds. -/
def convBatchNormPrepare (r : Replacement) : Edit ConvPlan := do
  let (conv, bn) ← pair r.nodes
  let inputName ← item r.inputs 0
  let weightName ← item r.inputs 1
  let biasName := (r.inputs[2]?).getD .none
  let before := (← get).tensorMap
  let input? ← lookupIn before inputName
  let weight? ← lookupIn before weightName
  let bias? ← lookupIn before biasName
  let outputName ← item r.outputs 0
  let output? ← lookupIn before outputName
  let input ← detach input? .consumers r.nodeNames
  let output ← detach output? .producers r.nodeNames
  let (newWeight, newBias) ← foldBatchNorm (← get) conv bn weight? bias?
  let weight ← found weight? "name"
  pure { input, output, weight, bias?, conv, newWeight, newBias }

/-- Adds the folded weight and bias constants and the new transposed convolution. -/
def convBatchNormBuild (p : ConvPlan) (g : Netlist) : Netlist :=
  let (g, w) := g.addTensor ((g.tensor p.weight).name ++ "_fused") (.constant (.array p.newWeight))
  let biasLabel := match p.bias? with
    | some b => (g.tensor b).name ++ "_fused"
    | none => p.conv.name ++ "_bias_fused"
  let (g, b) := g.addTensor biasLabel (.constant (.array p.newBias))
  (g.addNode "ConvTranspose" (p.conv.name ++ "_fused") p.conv.attrs [p.input, w, b] [p.output]).1

/-- Folds a matched transposed convolution and batch normalization into one node. -/
def convBatchNorm (r : Replacement) : Edit Unit := do
  let p ← convBatchNormPrepare r
  modify (convBatchNormBuild p)

end Fusion

end OnnxFusion
