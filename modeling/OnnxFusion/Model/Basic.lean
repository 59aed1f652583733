import OnnxFusion.Value.Basic
import OnnxFusion.Text.Utf8
/-!
# Models

A model is one graph: nodes in list order, each with an operator type, a name, the names of
the tensors it reads and writes and its attributes; initializers (named constant tensors);
and the declared inputs, outputs and intermediate values with their element type and
optional shape.

An attribute is written with any of several fields set. It is read by priority: a float,
else an integer, else a text (decoded from UTF-8), else a tensor, else a non-empty list of
floats, else a non-empty list of integers; with none of them it is ignored. A later
attribute of the same name replaces the value of an earlier one in its first place.
-/

set_option autoImplicit false

namespace OnnxFusion

/-- One dimension of a declared shape: a size, a symbolic name, or unknown. -/
inductive Dim where
  | size (n : Int)
  | param (name : String)
  | unknown
  deriving Inhabited

/-- A declared tensor: name, element type name and optional shape. -/
structure ValueInfo where
  name : String
  dtype : String
  shape : Option (List Dim)
  deriving Inhabited

/-- A node attribute as written: every field that was set. -/
structure Attribute where
  name : String
  f : Option Float := none
  i : Option Int := none
  s : Option (List Nat) := none
  t : Option Tensor := none
  floats : List Float := []
  ints : List Int := []
  deriving Inhabited

/-- A node as written in the model. -/
structure NodeDef where
  opType : String
  name : String
  inputs : List String
  outputs : List String
  attributes : List Attribute
  deriving Inhabited

/-- The graph of a model. -/
structure GraphDef where
  nodes : List NodeDef
  initializers : List (String × Tensor)
  inputs : List ValueInfo
  outputs : List ValueInfo
  valueInfo : List ValueInfo
  deriving Inhabited

/-- An ordered record of named values: a later write to a name keeps its first place. -/
abbrev Record := List (String × Value)

namespace Record

/-- Writes `v` under `k`. -/
def put (r : Record) (k : String) (v : Value) : Record :=
  if r.any (·.1 == k) then r.map (fun (k', v') => if k' == k then (k', v) else (k', v'))
  else r ++ [(k, v)]

/-- The value under `k`. -/
def get? (r : Record) (k : String) : Option Value := (r.find? (·.1 == k)).map (·.2)

end Record

namespace Attribute

/-- The value an attribute carries, decoding a text with `decode`; `none` if it is ignored. -/
def valueWith (decode : List Nat → Outcome String) (a : Attribute) : Outcome (Option Value) :=
  match a.f, a.i, a.s, a.t with
  | some x, _, _, _ => .ok (some (.float x))
  | none, some n, _, _ => .ok (some (.int n))
  | none, none, some bytes, _ => do
    let text ← decode bytes
    pure (some (.str text))
  | none, none, none, some t => .ok (some (.tensorAttr t))
  | none, none, none, none =>
    if !a.floats.isEmpty then .ok (some (.list (a.floats.map .float)))
    else if !a.ints.isEmpty then .ok (some (.list (a.ints.map .int)))
    else .ok none

end Attribute

/-- Reads attributes into a record with the given text decoding. -/
def readAttributes (decode : List Nat → Outcome String) : List Attribute → Record → Outcome Record
  | [], r => .ok r
  | a :: rest, r => do
    match ← a.valueWith decode with
    | some v => readAttributes decode rest (r.put a.name v)
    | none => readAttributes decode rest r

namespace NodeDef

/-- The attributes of a node; bytes that are not UTF-8 are a fault. -/
def attrs (n : NodeDef) : Outcome Record := readAttributes Text.decodeUtf8 n.attributes []

/-- The attributes of a node with malformed UTF-8 replaced by U+FFFD. -/
def attrsLenient (n : NodeDef) : Record :=
  match readAttributes (fun b => .ok (Text.decodeUtf8Replacing b)) n.attributes [] with
  | .ok r => r
  | .error _ => []

end NodeDef

end OnnxFusion
