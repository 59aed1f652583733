import OnnxFusion.Model.Basic
import OnnxFusion.Tensor.Json
/-!
# Models in JSON

The file form of a model is an object with the lists `nodes` (each with `op_type`, `name`,
`inputs`, `outputs` and `attrs`), `initializers` (tensors with a `name`), `inputs`, `outputs`
and `value_info` (declared values). Every key may be left out. An attribute is `{"name"}` with any of `f`, `i`, `s`, `s_hex`,
`t`, `floats`, `ints`; a float field is rounded to binary32 when read, integers must fit 64
bits. A declared value is `{"name", "dtype" (default float32), "shape"}` where a dimension
is an integer, a symbolic name or `null`, and a missing `shape` means no shape at all.
-/

set_option autoImplicit false

namespace OnnxFusion

namespace Json

/-- A field that must be a string. -/
def strField (j : Json) (key : String) (dflt : Option String) : Outcome String :=
  match j.get? key, dflt with
  | some (.str s), _ => .ok s
  | none, some d => .ok d
  | some .null, some d => .ok d
  | _, _ => .error (.badInput ("field '" ++ key ++ "' must be a string"))

/-- A field that must be a list of strings. -/
def strListField (j : Json) (key : String) : Outcome (List String) :=
  match j.get? key with
  | none | some .null => .ok []
  | some (.arr xs) =>
    match xs.mapM str? with
    | some ss => .ok ss
    | none => .error (.badInput ("field '" ++ key ++ "' must hold strings"))
  | some _ => .error (.badInput ("field '" ++ key ++ "' must be a list"))

/-- A field that must be a list. -/
def listField (j : Json) (key : String) : Outcome (List Json) :=
  match j.get? key with
  | none | some .null => .ok []
  | some (.arr xs) => .ok xs
  | some _ => .error (.badInput ("field '" ++ key ++ "' must be a list"))

end Json

/-- The least and greatest 64-bit integer. -/
def int64Range : Int × Int := (-(Nat.pow 2 63 : Nat), (Nat.pow 2 63 - 1 : Nat))

/-- Reads a 64-bit integer. -/
def readInt64 (j : Json) : Outcome Int :=
  match j with
  | .int n =>
    if int64Range.1 ≤ n && n ≤ int64Range.2 then .ok n
    else .error (.badInput ("integer " ++ toString n ++ " out of range for int64"))
  | _ => .error (.badInput "expected an integer")

/-- Reads a float rounded to binary32. -/
def readFloat32 (j : Json) : Outcome Float :=
  match j.toFloat? with
  | some x => .ok (Binary.binary32.round x)
  | none => .error (.badInput "expected a number")

/-- The value of a hexadecimal digit. -/
def nibble (c : Char) : Option Nat :=
  if c.isDigit then some (c.toNat - '0'.toNat)
  else if 'a' ≤ c && c ≤ 'f' then some (c.toNat - 'a'.toNat + 10)
  else if 'A' ≤ c && c ≤ 'F' then some (c.toNat - 'A'.toNat + 10)
  else none

/-- The bytes written as hexadecimal digits. -/
def bytesOfHex (s : String) : Outcome (List Nat) :=
  let rec go : List Char → Outcome (List Nat)
    | a :: b :: rest =>
      match nibble a, nibble b with
      | some x, some y => do
        let r ← go rest
        pure ((x * 16 + y) :: r)
      | _, _ => .error (.badInput "bad hex")
    | [] => .ok []
    | _ => .error (.badInput "bad hex")
  go s.toList

namespace Attribute

/-- The fields an attribute may carry. -/
def fields : List String := ["name", "f", "i", "s", "s_hex", "t", "floats", "ints"]

/-- Reads an attribute. -/
def ofJson (j : Json) : Outcome Attribute := do
  let members ← match j with
    | .obj ms => pure ms
    | _ => throw (.badInput "attribute must be an object")
  match members.find? (fun (k, _) => !fields.contains k) with
  | some (k, _) => throw (.badInput ("unknown attribute field '" ++ k ++ "'"))
  | none => pure ()
  let name ← j.strField "name" none
  let f ← match j.get? "f" with
    | some v => do pure (some (← readFloat32 v))
    | none => pure none
  let i ← match j.get? "i" with
    | some v => do pure (some (← readInt64 v))
    | none => pure none
  let s ← match j.get? "s", j.get? "s_hex" with
    | some (.str text), _ => pure (some (Text.utf8Bytes text))
    | some _, _ => throw (.badInput "field 's' must be a string")
    | none, some (.str hex) => do pure (some (← bytesOfHex hex))
    | none, some _ => throw (.badInput "field 's_hex' must be a string")
    | none, none => pure none
  let t ← match j.get? "t" with
    | some v => do pure (some (← Tensor.ofJson v))
    | none => pure none
  let floats ← (← j.listField "floats").mapM readFloat32
  let ints ← (← j.listField "ints").mapM readInt64
  pure { name, f, i, s, t, floats, ints }

end Attribute

namespace NodeDef

/-- Reads a node. -/
def ofJson (j : Json) : Outcome NodeDef := do
  let opType ← j.strField "op_type" (some "")
  let name ← j.strField "name" (some "")
  let inputs ← j.strListField "inputs"
  let outputs ← j.strListField "outputs"
  let attributes ← (← j.listField "attrs").mapM Attribute.ofJson
  pure { opType, name, inputs, outputs, attributes }

end NodeDef

namespace Dim

/-- Reads a dimension. -/
def ofJson : Json → Outcome Dim
  | .int n => .ok (.size n)
  | .str s => .ok (.param s)
  | .null => .ok .unknown
  | _ => .error (.badInput "bad dimension")

/-- The JSON form of a dimension. -/
def toJson : Dim → Json
  | .size n => .int n
  | .param s => .str s
  | .unknown => .null

end Dim

namespace ValueInfo

/-- Reads a declared value. -/
def ofJson (j : Json) : Outcome ValueInfo := do
  let name ← j.strField "name" none
  let dtype ← j.strField "dtype" (some "float32")
  let shape ← match j.get? "shape" with
    | none => pure none
    | some (.arr ds) => do pure (some (← ds.mapM Dim.ofJson))
    | some _ => throw (.badInput "shape must be a list")
  pure { name, dtype, shape }

end ValueInfo

namespace GraphDef

/-- Reads a named initializer. -/
def initializerOfJson (j : Json) : Outcome (String × Tensor) := do
  let name ← j.strField "name" none
  let t ← Tensor.ofJson j
  pure (name, t)

/-- Reads a model graph. -/
def ofJson (j : Json) : Outcome GraphDef := do
  match j with
  | .obj _ => pure ()
  | _ => throw (.badInput "graph must be an object")
  let nodes ← (← j.listField "nodes").mapM NodeDef.ofJson
  let initializers ← (← j.listField "initializers").mapM initializerOfJson
  let inputs ← (← j.listField "inputs").mapM ValueInfo.ofJson
  let outputs ← (← j.listField "outputs").mapM ValueInfo.ofJson
  let valueInfo ← (← j.listField "value_info").mapM ValueInfo.ofJson
  pure { nodes, initializers, inputs, outputs, valueInfo }

end GraphDef

end OnnxFusion
