import OnnxFusion.Value.Basic
import OnnxFusion.Tensor.Json
/-!
# Dynamic values in JSON

A JSON document read as a dynamic value: objects become records (a repeated key keeps its
first place and its last value), arrays lists, numbers integers or floats. Written back, an
array value is a tensor object and a tensor attribute is `{"tensor": TENSOR}`.
-/

set_option autoImplicit false

namespace OnnxFusion

namespace Value

mutual
/-- The dynamic value of a JSON document. -/
def ofJson : Json → Value
  | .null => .none
  | .bool b => .bool b
  | .int n => .int n
  | .float x => .float x
  | .str s => .str s
  | .arr xs => .list (ofJsonList xs)
  | .obj ms => .dict (ofJsonMembers ms [])

/-- The values of JSON items. -/
def ofJsonList : List Json → List Value
  | [] => []
  | x :: rest => ofJson x :: ofJsonList rest

/-- The record of JSON members, later keys replacing earlier ones in place. -/
def ofJsonMembers : List (String × Json) → List (String × Value) → List (String × Value)
  | [], acc => acc
  | (k, v) :: rest, acc =>
    let v' := ofJson v
    let acc' := if acc.any (·.1 == k) then acc.map (fun (k', w) => if k' == k then (k', v') else (k', w))
      else acc ++ [(k, v')]
    ofJsonMembers rest acc'
end

/-- Reads a value where an object holding `values` is a tensor. -/
def ofJsonWithArrays (j : Json) : Outcome Value :=
  if j.has "values" then do
    let t ← Tensor.ofJson j
    pure (.array t)
  else .ok (ofJson j)

mutual
/-- The JSON form of a dynamic value. -/
def toJson : Value → Json
  | .none => .null
  | .bool b => .bool b
  | .int n => .int n
  | .float x => .float x
  | .str s => .str s
  | .list xs => .arr (toJsonList xs)
  | .dict es => .obj (toJsonEntries es)
  | .array t => t.toJson
  | .tensorAttr t => .obj [("tensor", t.toJson)]

/-- The JSON forms of a list of values. -/
def toJsonList : List Value → List Json
  | [] => []
  | x :: rest => toJson x :: toJsonList rest

/-- The JSON members of a record. -/
def toJsonEntries : List (String × Value) → List (String × Json)
  | [] => []
  | (k, v) :: rest => (k, toJson v) :: toJsonEntries rest
end

end Value

end OnnxFusion
