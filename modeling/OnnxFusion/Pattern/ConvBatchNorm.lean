import OnnxFusion.Pattern.Match
/-!
# The transposed convolution followed by batch normalisation

Anchored at a `ConvTranspose` with exactly one output: the first `BatchNormalization` among
its successors, provided it reads that output as its first input. The match is
`[ConvTranspose, BatchNormalization]` with the convolution's inputs and the normalisation's
outputs.
-/

set_option autoImplicit false

namespace OnnxFusion.Pattern

open Dataflow

/-- Recognises `BatchNormalization (ConvTranspose x)` anchored at the convolution. -/
def convBatchNorm (g : Graph) (conv : Node) : Outcome (Option Match) := do
  if !conv.isOp "ConvTranspose" then return none
  let [out] := conv.outputs | return none
  let some bn := (← g.successors conv).find? (·.isOp "BatchNormalization") | return none
  if bn.inputs.head? != some out then return none
  return some { pattern := "ConvTransBNPattern", nodes := [conv, bn], inputs := conv.inputs.map .str,
                outputs := bn.outputs, attrs := [] }

end OnnxFusion.Pattern
