import OnnxFusion.Tensor.Basic
import OnnxFusion.Fault
/-!
# Element-wise arithmetic on tensors

The arithmetic of array libraries, on the element types of `DType`.

* **Types.** Two tensors meet in their common type (`DType.promote`): the wider of two floats
  or two integers, an unsigned and a signed integer in a signed type wide enough for both, an
  integer and a float in a float wide enough for the integer's range. A bare number is weak:
  it takes the tensor's type when that type is of its kind or a wider kind (an integer meeting
  a float tensor becomes a float of that type); a bare integer must then fit. A bare float
  meeting an integer tensor gives `float64`. Division of integers gives `float64`; the square
  root of a small integer type gives the narrowest float that holds it.
* **Shapes.** Shapes are aligned at their last dimensions; each pair of dimensions must be
  equal, or one of them 1, which is repeated along the other.
* **Rounding.** Each float operation is done on doubles and rounded once to the result type.
  For `+ - * /` and square root this is the correctly rounded result in every float type here,
  since a double carries more than twice the bits of the narrower types plus two. Integer
  results wrap around in their type.
-/

set_option autoImplicit false

namespace OnnxFusion

namespace DType

/-- The integer type of a width and signedness (64 bits and more is `int64`). -/
def ofIntWidth (w : Nat) (signed : Bool) : DType :=
  if !signed && w ≤ 8 then uint8
  else if w ≤ 8 then int8
  else if w ≤ 16 then int16
  else if w ≤ 32 then int32
  else int64

/-- The float type of at least a width in bits. -/
def ofFloatWidth (w : Nat) : DType :=
  if w ≤ 16 then float16 else if w ≤ 32 then float32 else float64

/-- The width in bits of a float type. -/
def floatWidth : DType → Nat
  | float16 => 16
  | float32 => 32
  | _ => 64

/-- The narrowest float width that holds every value of an integer type. -/
def floatNeed (t : DType) : Nat :=
  match t.intWidth? with
  | some (w, _) => if w ≤ 8 then 16 else if w ≤ 16 then 32 else 64
  | none => 16

/-- The common type of two tensor element types. -/
def promote (a b : DType) : DType :=
  if a == b then a
  else if a == bool then b
  else if b == bool then a
  else if a.isFloat && b.isFloat then ofFloatWidth (max a.floatWidth b.floatWidth)
  else if a.isFloat then ofFloatWidth (max a.floatWidth b.floatNeed)
  else if b.isFloat then ofFloatWidth (max b.floatWidth a.floatNeed)
  else
    match a.intWidth?, b.intWidth? with
    | some (wa, sa), some (wb, sb) =>
      if sa == sb then ofIntWidth (max wa wb) sa
      else if sa then ofIntWidth (max wa (2 * wb)) true
      else ofIntWidth (max (2 * wa) wb) true
    | _, _ => a

/-- The float type a square root of this type is computed in. -/
def sqrtType (t : DType) : DType :=
  if t.isFloat then t
  else if t == bool then float16
  else ofFloatWidth t.floatNeed

end DType

/-- An operand of element-wise arithmetic: a tensor, or a bare number. -/
inductive Operand where
  | tensor (t : Tensor)
  | number (s : Scalar)
  deriving Inhabited

/-- The four arithmetic operators. -/
inductive ArithOp where
  | add | sub | mul | div
  deriving DecidableEq, Inhabited

namespace ArithOp

/-- The operator's symbol. -/
def symbol : ArithOp → String
  | add => "+"
  | sub => "-"
  | mul => "*"
  | div => "/"

/-- The name of the array operation. -/
def ufuncName : ArithOp → String
  | add => "add"
  | sub => "subtract"
  | mul => "multiply"
  | div => "divide"

/-- The operator on doubles. -/
def onFloat : ArithOp → Float → Float → Float
  | add => (· + ·)
  | sub => (· - ·)
  | mul => (· * ·)
  | div => (· / ·)

/-- The operator on integers (division is never done on integers). -/
def onInt : ArithOp → Int → Int → Int
  | add => (· + ·)
  | sub => (· - ·)
  | mul => (· * ·)
  | div => (· / ·)

/-- The operator on two elements already cast to the result type. -/
def apply (op : ArithOp) (t : DType) (a b : Scalar) : Outcome Scalar :=
  match t.format? with
  | some fmt => .ok (.real (fmt.round (op.onFloat a.toFloat b.toFloat)))
  | none =>
    match a, b with
    | .bool x, .bool y =>
      match op with
      | add => .ok (.bool (x || y))
      | mul => .ok (.bool (x && y))
      | sub => .error .booleanSubtract
      | div => .ok (.real ((if x then 1.0 else 0.0) / (if y then 1.0 else 0.0)))
    | .int x, .int y => .ok (.int (t.wrap (op.onInt x y)))
    | _, _ => .ok a

end ArithOp

namespace Tensor

/-- Row-major strides of a shape. -/
def strides : List Nat → List Nat
  | [] => []
  | _ :: rest => count rest :: strides rest

/-- A shape padded with leading ones to a rank. -/
def padTo (n : Nat) (dims : List Nat) : List Nat := List.replicate (n - dims.length) 1 ++ dims

/-- The shape two shapes broadcast to, if they do. -/
def broadcastDims (a b : List Nat) : Option (List Nat) :=
  let n := max a.length b.length
  ((padTo n a).zip (padTo n b)).mapM fun (x, y) =>
    if x == y then some x else if x == 1 then some y else if y == 1 then some x else none

/-- The position in a tensor of shape `src` read for position `k` of the broadcast shape
`target` (the shapes have equal rank). -/
def sourceIndex (target src : List Nat) (k : Nat) : Nat :=
  let axes := (target.zip (strides target)).zip (src.zip (strides src))
  axes.foldl (fun acc ((t, ts), (s, ss)) =>
    let c := (k / ts) % t
    acc + (if s == 1 then 0 else c * ss)) 0

/-- The elements of a tensor repeated over a broadcast shape. -/
def expand (t : Tensor) (target : List Nat) : List Scalar :=
  let src := padTo target.length t.dims
  let arr := t.elems.toArray
  (List.range (count target)).map fun k => arr.getD (sourceIndex target src k) default


/-- The tensor with its elements read in a new shape. One negative dimension is inferred
from the size; the other dimensions must multiply to the size. -/
def reshape (t : Tensor) (dims : List Int) : Outcome Tensor := do
  let unknown := dims.filter (· < 0)
  if unknown.length > 1 then throw .twoUnknownDimensions
  let known : Nat := (dims.filter (· ≥ 0)).foldl (fun acc d => acc * d.toNat) 1
  let size := t.size
  if unknown.isEmpty then
    if known == size then pure { t with dims := dims.map Int.toNat }
    else throw (.badReshape size dims)
  else if known == 0 || size % known != 0 then throw (.badReshape size dims)
  else pure { t with dims := dims.map fun d => if d < 0 then size / known else d.toNat }

/-- The square root, element-wise. -/
def sqrt (t : Tensor) : Tensor :=
  let target := t.dtype.sqrtType
  let fmt := target.format?.getD Binary.binary64
  { dtype := target, dims := t.dims, elems := t.elems.map fun s => .real (fmt.round (s.cast target).toFloat.sqrt) }

end Tensor

namespace Operand

/-- An operand as a tensor: a bare number becomes a `float64`, `int64` or `bool` scalar. -/
def asTensor : Operand → Tensor
  | .tensor t => t
  | .number (.real x) => Tensor.scalar .float64 (.real x)
  | .number (.int n) => Tensor.scalar .int64 (.int n)
  | .number (.bool b) => Tensor.scalar .bool (.bool b)

/-- The element type of an operand. -/
def dtype (o : Operand) : DType := o.asTensor.dtype

/-- The type name shown for a bare number. -/
def numberName : Scalar → String
  | .real _ => "float"
  | .int _ => "int"
  | .bool _ => "bool"

/-- The type a bare number takes next to a tensor of type `t`. A bare integer that does
not fit an integer type is a fault. -/
def weakType (t : DType) (s : Scalar) : Outcome DType :=
  match s with
  | .bool _ => .ok t
  | .int n =>
    if t.isFloat then .ok t
    else if t == .bool then .ok .int64
    else
      match t.range? with
      | some (lo, hi) => if lo ≤ n && n ≤ hi then .ok t else .error (.integerOutOfBounds n t.name)
      | none => .ok t
  | .real _ => .ok (if t.isFloat then t else .float64)

/-- Two bare numbers combined as plain numbers: integers stay integers except under
division, booleans count as integers. -/
def numbers (op : ArithOp) (a b : Scalar) : Outcome Operand :=
  let asInt : Scalar → Option Int := fun
    | .int n => some n
    | .bool x => some (if x then 1 else 0)
    | .real _ => none
  match asInt a, asInt b, op with
  | some x, some y, .div =>
    if y == 0 then .error (.zeroDivision false)
    else .ok (.number (.real (Binary.binary64.ofInt x / Binary.binary64.ofInt y)))
  | some x, some y, _ => .ok (.number (.int (op.onInt x y)))
  | _, _, .div => if b.toFloat == 0.0 then .error (.zeroDivision true)
    else .ok (.number (.real (op.onFloat a.toFloat b.toFloat)))
  | _, _, _ => .ok (.number (.real (op.onFloat a.toFloat b.toFloat)))

/-- Applies an operator element-wise, with broadcasting and type promotion. -/
def arith (op : ArithOp) (a b : Operand) : Outcome Operand := do
  match a, b with
  | .number x, .number y => numbers op x y
  | _, _ =>
    let (ta, da) : DType × List Nat := match a with
      | .tensor t => (t.dtype, t.dims)
      | .number _ => (.bool, [])
    let (tb, db) : DType × List Nat := match b with
      | .tensor t => (t.dtype, t.dims)
      | .number _ => (.bool, [])
    let common ← match a, b with
      | .tensor _, .tensor _ => pure (DType.promote ta tb)
      | .number x, _ => weakType tb x
      | _, .number y => weakType ta y
    let result := if op == .div && !common.isFloat then DType.float64 else common
    let some dims := Tensor.broadcastDims da db | throw (.notBroadcastable da db)
    let elemsOf : Operand → List Scalar := fun
      | .tensor t => (t.expand dims).map (Scalar.cast result)
      | .number s => List.replicate (Tensor.count dims) (s.cast result)
    let elems ← (elemsOf a).zip (elemsOf b) |>.mapM fun (x, y) => op.apply result x y
    pure (.tensor { dtype := result, dims, elems })

/-- The square root of an operand; a bare number gives a `float64` scalar. -/
def sqrt : Operand → Operand
  | .tensor t => .tensor t.sqrt
  | .number s => .tensor (Tensor.scalar .float64 (.real s.toFloat.sqrt))

end Operand

end OnnxFusion
