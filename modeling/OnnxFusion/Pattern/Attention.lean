import OnnxFusion.Pattern.Match
import OnnxFusion.Text.Number
/-!
# The attention pattern

Anchored at a `Softmax`:

```
q ─ [Reshape] ─ Transpose ─ Div ─┐
k ─ [Reshape] ─ Transpose ───────┴─ MatMul ─ Softmax ─┐
v ─ [Reshape] ─ Transpose ────────────────────────────┴─ MatMul ─ Transpose ─ Reshape
```

The `Softmax` must have exactly one predecessor, a `MatMul` whose output has a declared shape
`[d0, d1, d2]`; an empty declared shape is a fault, another rank no match. That `MatMul` has
exactly two predecessors, among them a `Div` and a `Transpose` (the last of each kind). A
query or key `Transpose` with predecessors needs exactly one, a `Reshape`. Forward, the
`Softmax` and the second `MatMul` must each have exactly one successor of the expected kind
when they have any; when they have none the walk goes on with an empty list where a node is
expected, which is a fault. The second `MatMul` needs exactly two predecessors, the last
`Transpose` among them being the value branch, and the final `Transpose` exactly one
successor, a `Reshape`.

Inputs: the tensors read by the three `Transpose` nodes, then `[0, d1]` and `[0, d2]` as
int32 arrays (a named dimension is read as an integer text, see `Text.readInt?`); outputs:
those of the final `Transpose`.
-/

set_option autoImplicit false

namespace OnnxFusion.Pattern

open Dataflow

/-- A number as a 32-bit integer element; it must fit. -/
def fitInt32 (n : Int) : Outcome Int :=
  if -Int.pow 2 31 ≤ n && n < Int.pow 2 31 then .ok n else .error (.integerOutOfBounds n "int32")

/-- A declared dimension as a 32-bit integer element. A name is read as an integer text,
which must first fit 64 bits; then, as for a size, the number must fit 32 bits. -/
def int32Of : Dim → Outcome Int
  | .size n => fitInt32 n
  | .param s =>
    match Text.readInt? s with
    | some n =>
      if -Int.pow 2 63 ≤ n && n < Int.pow 2 63 then fitInt32 n
      else .error .intTooLargeForLong
    | none => .error (.invalidIntLiteral s)
  | .unknown => .error (.notConvertible "NoneType")

/-- The int32 array `[0, d]`. -/
def seqBounds (d : Dim) : Outcome Tensor := do
  let n ← int32Of d
  pure (Tensor.vector .int32 [.int 0, .int n])

/-- The last node of an operator type in a list. -/
def lastOp? (ns : List Node) (op : String) : Option Node := (ns.filter (·.isOp op)).getLast?

/-- A branch start: without predecessors, or with exactly one `Reshape`. -/
def reshapeFed (g : Graph) (n : Node) : Outcome Bool := do
  let ps ← g.predecessors n
  pure (ps.isEmpty || (soleOp? ps "Reshape").isSome)

/-- The fault of walking on from an empty list of successors. -/
def emptyWalk : Fault := .noAttribute "list" "id"

/-- The scores `MatMul`, the sole predecessor of a `Softmax`, with the sequence bounds
`[0, d1]` and `[0, d2]` of its declared shape `[d0, d1, d2]`. -/
def scoresOf (g : Graph) (softmax : Node) : Outcome (Option (Node × Tensor × Tensor)) := do
  let some scores := soleOp? (← g.predecessors softmax) "MatMul" | return none
  let shape ← g.shapeOf (← first scores.outputs)
  if shape.isEmpty then throw .unknownScoreShape
  let [_, d1, d2] := shape | return none
  let qSeq ← seqBounds d1
  let kSeq ← seqBounds d2
  return some (scores, qSeq, kSeq)

/-- The query and key branches behind the scores: the `Div` and the key `Transpose` among its
two predecessors, the query `Transpose` behind the `Div`, and the tensors the two
`Transpose` nodes read. -/
def queryKeyOf (g : Graph) (scores : Node) :
    Outcome (Option (Node × Node × Node × String × String)) := do
  let qk ← g.predecessors scores
  if qk.length != 2 then return none
  let some div := lastOp? qk "Div" | return none
  let some kTrans := lastOp? qk "Transpose" | return none
  let divPreds ← g.predecessors div
  if divPreds.isEmpty then return none
  let some qTrans := soleOp? divPreds "Transpose" | return none
  if !(← reshapeFed g qTrans) then return none
  let qInput ← first qTrans.inputs
  if !(← reshapeFed g kTrans) then return none
  let kInput ← first kTrans.inputs
  return some (div, qTrans, kTrans, qInput, kInput)

/-- The value branch and the output after the `Softmax`: the second `MatMul`, its value
`Transpose` and the tensor that reads, and the final `Transpose`, which must feed a
`Reshape`. -/
def mixedOf (g : Graph) (softmax : Node) : Outcome (Option (Node × Node × String × Node)) := do
  let afterSoftmax ← g.successors softmax
  if afterSoftmax.isEmpty then throw emptyWalk
  let some mixed := soleOp? afterSoftmax "MatMul" | return none
  let mixedPreds ← g.predecessors mixed
  let some vTrans := lastOp? mixedPreds "Transpose" | return none
  if mixedPreds.length != 2 then return none
  if !(← reshapeFed g vTrans) then return none
  let vInput ← first vTrans.inputs
  let afterMixed ← g.successors mixed
  if afterMixed.isEmpty then throw emptyWalk
  let some outTrans := soleOp? afterMixed "Transpose" | return none
  let some _ := soleOp? (← g.successors outTrans) "Reshape" | return none
  return some (mixed, vTrans, vInput, outTrans)

/-- Recognises scaled dot-product attention anchored at a `Softmax`. -/
def attention (g : Graph) (softmax : Node) : Outcome (Option Match) := do
  if !softmax.isOp "Softmax" then return none
  let some (scores, qSeq, kSeq) ← scoresOf g softmax | return none
  let some (div, qTrans, kTrans, qInput, kInput) ← queryKeyOf g scores | return none
  let some (mixed, vTrans, vInput, outTrans) ← mixedOf g softmax | return none
  return some { pattern := "CustomAttnPattern",
                nodes := [softmax, scores, div, qTrans, kTrans, mixed, vTrans, outTrans],
                inputs := [.str qInput, .str kInput, .str vInput, .array qSeq, .array kSeq],
                outputs := outTrans.outputs, attrs := [] }

end OnnxFusion.Pattern
