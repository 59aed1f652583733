import OnnxFusion.Numeric.Binary
/-!
# Tensors: element types, elements, shapes

A tensor is an element type, a list of dimensions and its elements in row-major order.
Elements of the three float types are held as doubles that the type can represent exactly;
integers as integers inside the type's range; booleans as booleans.

Casting follows the usual array-library rules: a float cast to a narrower float rounds to
nearest (ties to even), an integer cast to a float rounds once, and an integer cast to a
narrower integer wraps around. A float cast to an integer goes through a machine word:
64 bits for `int64`, 32 bits for the narrower types, whose low bits are then kept. The word
is the float truncated toward zero, or its least value when the float is NaN, infinite or
out of the word's range (so NaN becomes the least `int32`, and `0` in `int8`).
-/

set_option autoImplicit false

namespace OnnxFusion

/-- Element types of a tensor. -/
inductive DType where
  | float16 | float32 | float64 | int8 | uint8 | int16 | int32 | int64 | bool
  deriving DecidableEq, Inhabited, Repr

namespace DType

/-- The name a document uses for the type. -/
def name : DType → String
  | float16 => "float16"
  | float32 => "float32"
  | float64 => "float64"
  | int8 => "int8"
  | uint8 => "uint8"
  | int16 => "int16"
  | int32 => "int32"
  | int64 => "int64"
  | bool => "bool"

/-- Every element type. -/
def all : List DType := [float16, float32, float64, int8, uint8, int16, int32, int64, bool]

/-- The type of a name. -/
def ofName? (s : String) : Option DType := all.find? (·.name == s)

/-- The binary format of a float type. -/
def format? : DType → Option Binary.Format
  | float16 => some Binary.binary16
  | float32 => some Binary.binary32
  | float64 => some Binary.binary64
  | _ => none

/-- Whether the type holds floats. -/
def isFloat (t : DType) : Bool := t.format?.isSome

/-- Whether the type holds integers. -/
def isInt : DType → Bool
  | int8 | uint8 | int16 | int32 | int64 => true
  | _ => false

/-- Width in bits of an integer type, and whether it is signed. -/
def intWidth? : DType → Option (Nat × Bool)
  | int8 => some (8, true)
  | uint8 => some (8, false)
  | int16 => some (16, true)
  | int32 => some (32, true)
  | int64 => some (64, true)
  | _ => none

/-- The number of bytes one element of the type takes. -/
def itemSize : DType → Nat
  | float16 => 2
  | float32 => 4
  | float64 => 8
  | int8 => 1
  | uint8 => 1
  | int16 => 2
  | int32 => 4
  | int64 => 8
  | bool => 1

/-- The least and greatest value of an integer type. -/
def range? (t : DType) : Option (Int × Int) :=
  t.intWidth?.map fun (w, signed) =>
    if signed then (-(Nat.pow 2 (w - 1) : Nat), (Nat.pow 2 (w - 1) - 1 : Nat))
    else (0, (Nat.pow 2 w - 1 : Nat))

/-- Wraps an integer into the range of an integer type, two's complement. -/
def wrap (t : DType) (n : Int) : Int :=
  match t.intWidth? with
  | some (w, signed) =>
    let m : Int := n % (Nat.pow 2 w : Nat)
    if signed && m ≥ (Nat.pow 2 (w - 1) : Nat) then m - (Nat.pow 2 w : Nat) else m
  | none => n

end DType

/-- One element of a tensor. -/
inductive Scalar where
  | real (x : Float)
  | int (n : Int)
  | bool (b : Bool)
  deriving Inhabited

namespace Scalar

/-- The element as a double (integers rounded once, booleans 0 or 1). -/
def toFloat : Scalar → Float
  | real x => x
  | int n => Binary.binary64.ofInt n
  | bool b => if b then 1.0 else 0.0

/-- A float converted to a signed machine word of `w` bits: truncated toward zero, and the
least word when the float is NaN, infinite or truncates outside the word's range. -/
def floatToWord (w : Nat) (x : Float) : Int :=
  let least : Int := -((Nat.pow 2 (w - 1) : Nat) : Int)
  match Binary.truncInt x with
  | some n => if least ≤ n && n < -least then n else least
  | none => least

/-- Casts an element to a type. -/
def cast (target : DType) (s : Scalar) : Scalar :=
  match target.format? with
  | some fmt =>
    match s with
    | real x => real (fmt.round x)
    | int n => real (fmt.ofInt n)
    | bool b => real (if b then 1.0 else 0.0)
  | none =>
    if target == .bool then
      match s with
      | real x => bool (x != 0.0)
      | int n => bool (n != 0)
      | bool b => bool b
    else
      match s with
      | real x => int (target.wrap (floatToWord (if target == .int64 then 64 else 32) x))
      | int n => int (target.wrap n)
      | bool b => int (if b then 1 else 0)

end Scalar

/-- A tensor: element type, dimensions and row-major elements. -/
structure Tensor where
  dtype : DType
  dims : List Nat
  elems : List Scalar
  deriving Inhabited

namespace Tensor

/-- The number of elements a shape holds. -/
def count (dims : List Nat) : Nat := dims.foldl (· * ·) 1

/-- The number of elements. -/
def size (t : Tensor) : Nat := t.elems.length

/-- The tensor cast element-wise to another type. -/
def astype (t : Tensor) (target : DType) : Tensor :=
  { dtype := target, dims := t.dims, elems := t.elems.map (Scalar.cast target) }

/-- A tensor of one value repeated over a shape. -/
def filled (dtype : DType) (dims : List Nat) (v : Scalar) : Tensor :=
  { dtype, dims, elems := List.replicate (count dims) (v.cast dtype) }

/-- A zero-dimensional tensor. -/
def scalar (dtype : DType) (v : Scalar) : Tensor := { dtype, dims := [], elems := [v.cast dtype] }

/-- A one-dimensional tensor. -/
def vector (dtype : DType) (vs : List Scalar) : Tensor :=
  { dtype, dims := [vs.length], elems := vs.map (Scalar.cast dtype) }

end Tensor

end OnnxFusion
