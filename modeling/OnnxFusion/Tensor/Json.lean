import OnnxFusion.Tensor.Basic
import OnnxFusion.Json.Basic
import OnnxFusion.Fault
import OnnxFusion.Numeric.Shortest
/-!
# Tensors in JSON

A tensor is written `{"dtype": D, "dims": [..], "values": [flat row-major]}`. On reading,
an absent `dtype` is `float32`, absent `values` are none, and absent `dims` are the number of
values; a `dtype` or `dims` given as `null` is refused. Boolean elements are read by
truthiness: `false`, `null`, zero and empty texts, lists and objects are false. Other
elements must be numbers (a boolean is not one), and integers must fit the element type. The
texts `"NaN"`, `"Infinity"` and `"-Infinity"` stand for those floats wherever a number is
read. The dimensions must be natural and their product the number of values.

A refused element is named by its literal form (`True`, `None`, `'x'`, `[1, 2]`).
-/

set_option autoImplicit false

namespace OnnxFusion

namespace Json

/-- The double a JSON number (or one of the three special texts) stands for. -/
def toFloat? : Json → Option Float
  | .int n => some (Binary.binary64.ofInt n)
  | .float x => some x
  | .str "NaN" => some Binary.nan
  | .str "Infinity" => some Binary.infinity
  | .str "-Infinity" => some (-Binary.infinity)
  | _ => none

/-- A JSON number for a double. -/
def ofFloat (x : Float) : Json := .float x

mutual
/-- The literal form of a JSON value: `None`, `True`, numbers, quoted texts, and lists and
objects in brackets with `, ` between items; of two equal keys the later value is kept, in
the place the key was first seen. -/
def literal : Json → String
  | .null => "None"
  | .bool b => if b then "True" else "False"
  | .int n => toString n
  | .float x => Decimal.repr x
  | .str s => Text.literal s
  | .arr items => "[" ++ ", ".intercalate (literalItems items) ++ "]"
  | .obj members =>
    let kept := (literalMembers members).foldl (fun acc (k, v) =>
      if acc.any (·.1 == k) then acc.map (fun (k', v') => if k' == k then (k', v) else (k', v'))
      else acc ++ [(k, v)]) []
    "\x7b" ++ ", ".intercalate (kept.map fun (k, v) => Text.literal k ++ ": " ++ v) ++ "\x7d"

/-- The literal forms of list items. -/
def literalItems : List Json → List String
  | [] => []
  | v :: rest => literal v :: literalItems rest

/-- The members of an object with their values in literal form. -/
def literalMembers : List (String × Json) → List (String × String)
  | [] => []
  | (k, v) :: rest => (k, literal v) :: literalMembers rest
end

/-- Whether a JSON value counts as true. -/
def truthy : Json → Bool
  | .null => false
  | .bool b => b
  | .int n => n != 0
  | .float x => x != 0.0
  | .str s => !s.isEmpty
  | .arr items => !items.isEmpty
  | .obj entries => !entries.isEmpty

/-- The type name of a JSON value as a decoded value. -/
def typeName : Json → String
  | .null => "NoneType"
  | .bool _ => "bool"
  | .int _ => "int"
  | .float _ => "float"
  | .str _ => "str"
  | .arr _ => "list"
  | .obj _ => "dict"

/-- The items a JSON value yields when iterated: list items, the characters of a text, the
keys of an object; others cannot be iterated. -/
def items (j : Json) : Outcome (List Json) :=
  match j with
  | .arr vs => .ok vs
  | .str s => .ok (s.toList.map fun c => .str c.toString)
  | .obj _ => .ok (((j.members?).getD []).map fun e => .str e.1)
  | _ => .error (.badInput ("TypeError: '" ++ typeName j ++ "' object is not iterable"))

end Json

namespace Scalar

/-- Reads one element of type `t`. -/
def ofJson (t : DType) (j : Json) : Outcome Scalar :=
  let notNumber : Fault := .badInput ("not a number: " ++ j.literal)
  match t.format? with
  | some fmt =>
    match j with
    | .bool _ => .error notNumber
    | _ =>
      match j.toFloat? with
      | some x => .ok (.real (fmt.round x))
      | none => .error notNumber
  | none =>
    if t == .bool then .ok (.bool j.truthy)
    else
      let check (n : Int) : Outcome Scalar :=
        match t.range? with
        | some (lo, hi) =>
          if lo ≤ n && n ≤ hi then .ok (.int n)
          else .error (.badInput ("integer " ++ toString n ++ " out of range for " ++ t.name))
        | none => .ok (.int n)
      match j with
      | .int n => check n
      | .float x =>
        match Binary.truncInt x with
        | some n => check n
        | none => .error (.badInput "value is not an integer")
      | _ => .error notNumber

/-- The JSON form of an element. -/
def toJson : Scalar → Json
  | .real x => .float x
  | .int n => .int n
  | .bool b => .bool b

end Scalar

namespace Tensor

/-- Reads a list of elements. -/
def elemsOfJson (t : DType) : List Json → Outcome (List Scalar)
  | [] => .ok []
  | j :: rest => do
    let s ← Scalar.ofJson t j
    let ss ← elemsOfJson t rest
    pure (s :: ss)

/-- Reads a list of natural dimensions. -/
def dimsOfJson (js : List Json) : Option (List Int) :=
  js.mapM fun
    | .int n => some n
    | _ => none

/-- Reads a tensor. -/
def ofJson (j : Json) : Outcome Tensor := do
  let dtype ← match j.get? "dtype" with
    | none => pure DType.float32
    | some (.str s) =>
      match DType.ofName? s with
      | some t => pure t
      | none => throw (.badInput ("unknown dtype " ++ Text.literal s))
    | some d => throw (.badInput ("unknown dtype " ++ d.literal))
  let values ← match j.get? "values" with
    | some vs => vs.items
    | none => pure []
  let elems ← elemsOfJson dtype values
  let dims : List Int ← match j.get? "dims" with
    | none => pure [(values.length : Int)]
    | some ds =>
      match dimsOfJson (← ds.items) with
      | some d => pure d
      | none => throw (.badInput "dims must be integers")
  let product : Int := dims.foldl (· * ·) 1
  if dims.any (· < 0) || product != values.length then
    throw (.badInput ("dims " ++ toString dims ++ " do not match " ++ toString values.length ++ " values"))
  pure { dtype, dims := dims.map Int.toNat, elems }

/-- The JSON form of a tensor. -/
def toJson (t : Tensor) : Json :=
  .obj [("dtype", .str t.dtype.name), ("dims", .arr (t.dims.map (fun (d : Nat) => Json.int (Int.ofNat d)))),
    ("values", .arr (t.elems.map Scalar.toJson))]

end Tensor

end OnnxFusion
