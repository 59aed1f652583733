import OnnxFusion.Tensor.Reduce
/-!
# Measures of agreement between two tensors

Two measures compare a reference tensor with an approximation of it, as when the outputs
of a quantized model are checked against those of the float model:

* `meanSquaredError`: the mean of the squared element-wise differences, computed in the
  tensors' common type (differences and squares rounded or wrapped in that type, then the
  mean of `Tensor.mean`). The shapes must be equal.
* `cosineSimilarity`: the dot product of the flattened tensors over the product of their
  norms. Two zero norms give 1, one zero norm gives 0. The lengths must be equal.
-/

set_option autoImplicit false

namespace OnnxFusion

namespace Measure

/-- The mean squared error between two tensors of one shape. -/
def meanSquaredError (a b : Tensor) : Outcome Float := do
  if a.dims != b.dims then throw .shapesDiffer
  let diff := (← Operand.arith .sub (.tensor a) (.tensor b)).asTensor
  let sq := (← Operand.arith .mul (.tensor diff) (.tensor diff)).asTensor
  pure sq.mean.2

/-- The cosine similarity of two tensors of one size, with the element type of the quotient.
The zero-norm cases give a plain number, of no element type. -/
def cosineReading (a b : Tensor) : Outcome (Option DType × Float) := do
  if a.size != b.size then throw .lengthsDiffer
  let d := a.dot b
  let (t1, n1) := a.norm
  let (t2, n2) := b.norm
  if n1 == 0.0 && n2 == 0.0 then return (none, 1.0)
  if n1 == 0.0 || n2 == 0.0 then return (none, 0.0)
  let prodType := DType.promote t1 t2
  let prodFmt := prodType.format?.getD Binary.binary64
  let prod := prodFmt.round (n1 * n2)
  let resultType := DType.promote (DType.promote a.dtype b.dtype) prodType
  let fmt := resultType.format?.getD Binary.binary64
  pure (some resultType, fmt.round ((Scalar.cast resultType d).toFloat / prod))

/-- The cosine similarity of two tensors of one size. -/
def cosineSimilarity (a b : Tensor) : Outcome Float := do
  pure (← cosineReading a b).2

end Measure

end OnnxFusion
