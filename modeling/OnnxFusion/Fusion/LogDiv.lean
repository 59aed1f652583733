import OnnxFusion.Fusion.Basic
/-!
# Rewriting the logarithm of a quotient

`log (a / b)` becomes `log a - log b`: two `Log` nodes, `<log>_0` and `<log>_1`, write the
fresh variables `<log>_0_out` and `<log>_1_out`, and a `Sub` node named after the division
writes the old output. The fresh variables take the element type and shape of the output.
All tensors are found in the name table as it was before any link changed.
-/

set_option autoImplicit false

namespace OnnxFusion

namespace Fusion

/-- The element type and shape a tensor object declares. -/
def declared (g : Netlist) (t : Nat) : Option String × Option (List Dim) :=
  match (g.tensor t).payload with
  | .variable dtype shape => (dtype, shape)
  | .constant (.array a) => (some a.dtype.name, some (a.dims.map fun (d : Nat) => Dim.size (Int.ofNat d)))
  | .constant _ => (none, none)

/-- What the rewrite adds once the matched nodes are unlinked: the two operands, the output,
and the names of the matched `Log` and `Div`. -/
structure LogDivPlan where
  a : Nat
  b : Nat
  output : Nat
  logName : String
  divName : String

/-- Finds the operands and the output and unlinks the matched nodes from them. -/
def logDivPrepare (r : Replacement) : Edit LogDivPlan := do
  let table := (← get).tensorMap
  let (divNode, logNode) ← pair r.nodes
  let (aName, bName) ← pair r.inputs
  let a? ← lookupIn table aName
  let b? ← lookupIn table bName
  let a ← detach a? .consumers r.nodeNames
  let b ← detach b? .consumers r.nodeNames
  let outputName ← item r.outputs 0
  let output ← detach (← lookupIn table outputName) .producers r.nodeNames
  pure { a, b, output, logName := logNode.name, divName := divNode.name }

/-- Adds the two fresh variables, the two `Log` nodes and the `Sub` node. -/
def logDivBuild (p : LogDivPlan) (g : Netlist) : Netlist :=
  let (dtype, shape) := declared g p.output
  let (g, out0) := g.addTensor (p.logName ++ "_0_out") (.variable dtype shape)
  let (g, out1) := g.addTensor (p.logName ++ "_1_out") (.variable dtype shape)
  let (g, _) := g.addNode "Log" (p.logName ++ "_0") [] [p.a] [out0]
  let (g, _) := g.addNode "Log" (p.logName ++ "_1") [] [p.b] [out1]
  (g.addNode "Sub" p.divName [] [out0, out1] [p.output]).1

/-- Replaces a matched `Log (Div a b)` by `Sub (Log a) (Log b)`. -/
def logDiv (r : Replacement) : Edit Unit := do
  let p ← logDivPrepare r
  modify (logDivBuild p)

end Fusion

end OnnxFusion
