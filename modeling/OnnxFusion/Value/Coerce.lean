import OnnxFusion.Value.Text
/-!
# Plain values made into one array

Nested lists of plain values become an array the way an array library coerces them:

* **Shape.** A list has its length as its first dimension, followed by the dimensions its
  items share; anything that is not a list is a scalar. When the items disagree, the array
  is ragged, and the shape is known only as far as the items agree (`nestedShape`).
* **Element type.** Each scalar has a kind: a boolean is `bool`; an integer is `int64`,
  or `uint64` beyond it, or an object beyond that; a float is `float64`; a text of `n`
  characters is `<U n` (at least `<U1`); nothing and records are objects. The kinds of all
  scalars are joined: objects absorb everything, texts widen to hold the other kinds as
  text (a boolean needs 5 characters, an `int64` 21, a `uint64` 20, a `float64` 32), a
  boolean gives way to a number, and two different number kinds meet in `float64`.
* **Dimensions.** A dimension of a new array is an integer within 64 bits; a boolean is
  refused, and so is any other value. A shape is one integer, or the items of a list or the
  characters of a text, each a dimension; any other value is refused as a shape.
* **Allocation.** The dimensions of a new array are taken in order: a zero one is passed
  over, a negative one is refused, and the bytes spanned must stay within a signed 64-bit
  size. An array that is not empty and spans more than `Tensor.memoryLimit` bytes cannot be
  allocated.
-/

set_option autoImplicit false

namespace OnnxFusion

namespace Value

/-- The shape of nested lists and whether they are ragged: the common prefix of the items'
shapes, below the list's own length. -/
def nestedShape : Value → List Nat × Bool
  | .list items =>
    let shapes := items.attach.map fun ⟨v, _⟩ => nestedShape v
    match shapes with
    | [] => ([0], false)
    | (s, r) :: rest =>
      if !r && rest.all (fun (s', r') => !r' && s' == s) then (items.length :: s, false)
      else
        let common := rest.foldl (fun acc (s', _) =>
          (acc.zip s').takeWhile (fun (a, b) => a == b) |>.map (·.1)) s
        (items.length :: common, true)
  | _ => ([], false)

/-- The scalar elements of nested lists in row-major order. -/
def leaves : Value → List Value
  | .list items => items.attach.flatMap fun ⟨v, _⟩ => leaves v
  | v => [v]

/-- A value read as one dimension of a new array. -/
def dimension (v : Value) : Outcome Int :=
  match v with
  | .int n => if -Int.pow 2 63 ≤ n && n < Int.pow 2 63 then .ok n else .error .dimensionTooLarge
  | .bool _ => .error .integerRequired
  | _ => .error (.notAnInteger v.typeName)

/-- A value read as the shape of a new array. -/
def shapeArgument (v : Value) : Outcome (List Int) :=
  match v with
  | .int _ => do pure [← v.dimension]
  | .str s => s.toList.mapM fun c => (Value.str c.toString).dimension
  | .list items => items.mapM dimension
  | _ => .error (.notAShape ((v.literal.take 100).toString))

end Value

namespace Tensor

/-- The largest number of bytes one array may span. -/
def maxArrayBytes : Nat := Nat.pow 2 63 - 1

/-- The most bytes one allocation is taken to obtain; a larger one fails for want of memory. -/
def memoryLimit : Nat := Nat.pow 2 35

/-- The bytes spanned by dimensions in order, from `bytes`: a zero dimension is passed over,
a negative one is a fault, and so is passing the largest array. -/
def spanOf (bytes : Nat) : List Int → Outcome Nat
  | [] => .ok bytes
  | d :: rest =>
    if d == 0 then spanOf bytes rest
    else if d < 0 then .error .negativeDimension
    else if bytes * d.toNat > maxArrayBytes then .error .arrayTooBig
    else spanOf (bytes * d.toNat) rest

/-- The dimensions of a new array of a type, checked the way arrays are allocated: the span
first (see `spanOf`), then the memory an array with no zero dimension takes. -/
def allocation (dtype : DType) (dims : List Int) : Outcome (List Nat) := do
  let bytes ← spanOf dtype.itemSize dims
  let sizes := dims.map Int.toNat
  if sizes.contains 0 || bytes ≤ memoryLimit then pure sizes
  else throw (.outOfMemory bytes sizes dtype.name)

end Tensor

/-- The element type plain values take when they are made into one array. -/
inductive ElementKind
  | bool
  | int64
  | uint64
  | float64
  /-- Texts of at most `width` characters. -/
  | text (width : Nat)
  | object
  deriving DecidableEq, Inhabited

namespace ElementKind

/-- The element type as a data type writes it: `bool`, `int64`, `<U3`, `O`. -/
def name : ElementKind → String
  | bool => "bool"
  | int64 => "int64"
  | uint64 => "uint64"
  | float64 => "float64"
  | text w => "<U" ++ toString w
  | object => "O"

/-- The number of characters a value of the kind needs when written as text. -/
def textWidth : ElementKind → Nat
  | bool => 5
  | int64 => 21
  | uint64 => 20
  | float64 => 32
  | text w => w
  | object => 0

/-- The element type that holds values of two kinds. -/
def join : ElementKind → ElementKind → ElementKind
  | object, _ | _, object => object
  | text w, k | k, text w => text (max w k.textWidth)
  | bool, k | k, bool => k
  | int64, int64 => int64
  | uint64, uint64 => uint64
  | _, _ => float64

/-- The kind of one scalar. -/
def ofScalar (v : Value) : ElementKind :=
  match v with
  | .bool _ => bool
  | .int n =>
    if -Int.pow 2 63 ≤ n && n < Int.pow 2 63 then int64
    else if 0 ≤ n && n < Int.pow 2 64 then uint64
    else object
  | .float _ => float64
  | .str s => text (max 1 s.length)
  | _ => object

/-- The kind of an array made of some scalars; none are `float64`, as an empty list gives. -/
def ofScalars : List Value → ElementKind
  | [] => float64
  | v :: vs => vs.foldl (fun k w => join k (ofScalar w)) (ofScalar v)

/-- Whether values of the kind become `int64` without loss of any kind. -/
def castsSafelyToInt64 : ElementKind → Bool
  | bool | int64 => true
  | _ => false

end ElementKind

end OnnxFusion
