import OnnxFusion.Pattern.Match
import OnnxFusion.Value.Coerce
/-!
# The layer-normalisation pattern

Anchored at a `ReduceMean` (the mean) and followed along successors:

```
x ─ ReduceMean ─ Sub ─┬─ Pow ─ ReduceMean ─ Add(ε) ─ Sqrt ─┐
 └────────────────────┴────────────────────────────────── Div ─ [Mul(γ) ─ [Add(β)]]
```

The `Sub` must have exactly two successors, a `Pow` and a `Div`, the first in list order
taken as the power and the second required to be the final `Div`. Every other step must
have exactly one successor of the expected type. The shape of the `Div` output is looked up
as soon as the `Div` is found. `Mul` and bias `Add` join the match only when their second
operand is an initializer; otherwise the match ends before them.

The result's inputs are `x`, the scale and the bias (initializers cast to float32, or ones
and zeros over the trailing dimensions `shape[axis:]`), and its attributes the `epsilon`
read from the initializer added to the variance and `axis = rank - |axes|`.
-/

set_option autoImplicit false

namespace OnnxFusion.Pattern

open Dataflow

/-- The number of items of a value that has a length; others are a fault. -/
def lengthOf : Value → Outcome Nat
  | .str s => .ok s.length
  | .list xs => .ok xs.length
  | .dict es => .ok es.length
  | v => .error (.noLength v.typeName)

/-- The trailing part of a list from a position that may count from the end. -/
def dropFrom {α : Type} (xs : List α) (start : Int) : List α :=
  if start ≥ 0 then xs.drop start.toNat
  else xs.drop (xs.length - (-start).toNat)

/-- Sizes of declared dimensions for a new float32 array: every dimension must be an integer
(the first that is not is reported), and then the array must be one that can be made (see
`Tensor.allocation`). -/
def sizesOf (dims : List Dim) : Outcome (List Nat) := do
  let ns ← dims.mapM fun
    | .size n => .ok n
    | .param _ => .error (.notAnInteger "str")
    | .unknown => .error (.notAnInteger "NoneType")
  Tensor.allocation .float32 ns

/-- The only element of a tensor as a float; other sizes are a fault. -/
def soleValue (t : Tensor) : Outcome Float :=
  match t.elems with
  | [x] => .ok x.toFloat
  | _ => .error .notOneElement

/-- The `Sub` that centres the input of a mean, the input it centres (its first operand that
the mean does not write) and its successors, which must be one `Pow` and one `Div`. -/
def centredOf (g : Graph) (rm1 : Node) : Outcome (Option (Node × String × List Node)) := do
  let some sub := soleOp? (← g.successors rm1) "Sub" | return none
  let some mainInput := (sub.inputs.filter (fun n => !rm1.outputs.contains n)).head? | return none
  let powAndDiv ← g.successors sub
  let ops := (powAndDiv.map (·.opType)).eraseDups
  if powAndDiv.length != 2 || !(ops.length == 2 && ops.contains "Pow" && ops.contains "Div") then
    return none
  return some (sub, mainInput, powAndDiv)

/-- The variance branch after the `Pow`: `ReduceMean`, `Add`, `Sqrt` and `Div`, each the sole
successor of the one before. -/
def varianceOf (g : Graph) (pown : Node) : Outcome (Option (Node × Node × Node × Node)) := do
  let some rm2 := soleOp? (← g.successors pown) "ReduceMean" | return none
  let some addEps := soleOp? (← g.successors rm2) "Add" | return none
  let some sqrt := soleOp? (← g.successors addEps) "Sqrt" | return none
  let some div := soleOp? (← g.successors sqrt) "Div" | return none
  return some (rm2, addEps, sqrt, div)

/-- The affine tail after the `Div`: its sole successor must be a `Mul`, which joins the match
only when its other operand is an initializer (the scale); the `Mul`'s sole successor must
then be an `Add`, which joins only when its other operand is an initializer (the bias).
Gives the nodes that joined, the outputs of the match, the scale and the bias. -/
def affineOf (g : Graph) (div : Node) :
    Outcome (Option (List Node × List String × Option Tensor × Option Tensor)) := do
  let some mul := soleOp? (← g.successors div) "Mul" | return none
  let scaleName := mul.inputs.find? (fun i => !div.outputs.contains i)
  match scaleName.bind g.initializer? with
  | none => return some ([], div.outputs, none, none)
  | some scale =>
    let some addBias := soleOp? (← g.successors mul) "Add" | return none
    let biasName := addBias.inputs.find? (fun i => !mul.outputs.contains i)
    match biasName.bind g.initializer? with
    | none => return some ([mul], mul.outputs, some scale, none)
    | some bias => return some ([mul, addBias], addBias.outputs, some scale, some bias)

/-- The constants of the fused node: the scale and bias (ones and zeros over the trailing
dimensions `shape[axis:]` when missing), the epsilon read from the initializer added to the
variance, and `axis = rank - |axes|`. A mean without `axes` gives no match. -/
def normConstants (g : Graph) (rm1 rm2 addEps : Node) (shape : List Dim)
    (scale? bias? : Option Tensor) : Outcome (Option (Tensor × Tensor × Float × Int)) := do
  let eps? := ((addEps.inputs.filter (fun i => !rm2.outputs.contains i)).getLast?).bind g.initializer?
  let some axes := rm1.attr? "axes" | return none
  if axes.isFalsy then return none
  let axis : Int := (shape.length : Int) - ((← lengthOf axes) : Int)
  let scale ← match scale? with
    | some t => pure t
    | none => do pure (Tensor.filled .float32 (← sizesOf (dropFrom shape axis)) (.real 1.0))
  let bias ← match bias? with
    | some t => pure t
    | none => do pure (Tensor.filled .float32 (← sizesOf (dropFrom shape axis)) (.real 0.0))
  let epsilon ← match eps? with
    | some t => soleValue t
    | none => throw (.noAttribute "NoneType" "item")
  return some (scale, bias, epsilon, axis)

/-- Recognises a decomposed layer normalisation anchored at `rm1`. -/
def layerNorm (g : Graph) (rm1 : Node) : Outcome (Option Match) := do
  if !rm1.isOp "ReduceMean" then return none
  let some (sub, mainInput, powAndDiv) ← centredOf g rm1 | return none
  let pown ← first powAndDiv
  let some (rm2, addEps, sqrt, div) ← varianceOf g pown | return none
  let divOut ← first div.outputs
  let shape ← g.shapeOf divOut
  if (powAndDiv.drop 1).head?.map (·.index) != some div.index then return none
  let some (tail, outputs, scale?, bias?) ← affineOf g div | return none
  let some (scale, bias, epsilon, axis) ← normConstants g rm1 rm2 addEps shape scale? bias?
    | return none
  return some { pattern := "LayerNormPattern", nodes := [rm1, sub, pown, rm2, addEps, sqrt, div] ++ tail,
                inputs := [.str mainInput, .array scale, .array bias], outputs,
                attrs := [("epsilon", .float epsilon), ("axis", .int axis)] }

end OnnxFusion.Pattern
