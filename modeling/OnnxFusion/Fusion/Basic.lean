import OnnxFusion.Netlist.Basic
import OnnxFusion.Dataflow.Graph
import OnnxFusion.Tensor.Arith
import OnnxFusion.Json.Read
import OnnxFusion.Text.Number
import OnnxFusion.Value.Coerce
/-!
# Replacements and the steps every fusion shares

A replacement names the pattern that asks for it, the matched nodes of the dataflow view, the
inputs and outputs of the single node that takes their place, and attributes for it. Inputs
and outputs are dynamic values: tensor names, or constant values computed by the pattern.

A fusion finds tensors by name in the netlist's name table. A text that names no tensor, and
any other value that can be hashed, finds nothing; a list, record or array is a fault. Taking
the links of the matched nodes away from a tensor goes through a snapshot of its consumers
(or producers): each one whose name is a matched node's name is unlinked once.

A fusion is an `Edit`: the tool edits its graph in place, so a fusion that stops at a fault
keeps every link it changed before the fault. Each fusion first prepares (looks its tensors
up, unlinks the matched nodes and checks and computes what it needs, in the order whose
faults win) and then builds (adds its tensors and nodes, which cannot fail).
-/

set_option autoImplicit false

namespace OnnxFusion

/-- A request to replace matched nodes by one node. -/
structure Replacement where
  pattern : String
  nodes : List Dataflow.Node
  inputs : List Value
  outputs : List Value
  attrs : Record
  deriving Inhabited

namespace Replacement

/-- The names of the matched nodes. -/
def nodeNames (r : Replacement) : List String := r.nodes.map (·.name)

/-- The text a replacement is shown as, with node identities given by `ident`. -/
def describe (r : Replacement) (ident : Nat → String) : String :=
  "MatchResult(pattern=" ++ r.pattern ++ ", nodes=[" ++
    ", ".intercalate (r.nodes.map fun n => ident n.index) ++ "])"

end Replacement

/-- An edit of a netlist that may stop at a fault, keeping the edits made before it. -/
abbrev Edit := ExceptT Fault (StateM Netlist)

namespace Edit

/-- Runs an edit on a netlist: its result or fault, and the netlist it leaves. -/
def exec {α : Type} (x : Edit α) (g : Netlist) : Except Fault α × Netlist := x.run.run g

end Edit

/-- The attribute of a tensor that lists one side of it: its consumers are read as
`outputs`, its producers as `inputs`. -/
def Side.attribute : Side → String
  | .consumers => "outputs"
  | .producers => "inputs"

namespace Fusion

/-- The `i`-th item of a list; past the end is a fault. -/
def item {α : Type} (xs : List α) (i : Nat) : Outcome α :=
  match xs[i]? with
  | some x => .ok x
  | none => .error .indexOutOfRange

/-- The two items of a list of exactly two. -/
def pair {α : Type} : List α → Outcome (α × α)
  | [a, b] => .ok (a, b)
  | _ :: _ :: _ :: _ => .error (.tooManyToUnpack 2)
  | xs => .error (.tooFewToUnpack 2 xs.length)

/-- The tensor a value names in a name table. -/
def lookupIn (table : List (String × Nat)) (v : Value) : Outcome (Option Nat) :=
  match v with
  | .str s => .ok ((table.find? (·.1 == s)).map (·.2))
  | _ => if v.hashable then .ok none else .error (.unhashable v.typeName)

/-- The tensor a value names in the netlist as it is now. -/
def lookup (g : Netlist) (v : Value) : Outcome (Option Nat) := lookupIn g.tensorMap v

/-- A tensor that was found; nothing found is a fault when its field is read. -/
def found (t : Option Nat) (field : String) : Outcome Nat :=
  match t with
  | some i => .ok i
  | none => .error (.noAttribute "NoneType" field)

/-- Unlinks from tensor `t`, on one side, every node of a snapshot of that side whose name is
one of `names`. -/
def unlink (g : Netlist) (side : Side) (t : Nat) (names : List String) : Netlist :=
  ((g.tensor t).links side).foldl
    (fun acc n => if names.contains (acc.node n).name then acc.dropLink side t n else acc) g

/-- Takes a tensor looked up earlier and unlinks from it, on one side, the nodes named in
`names`; a tensor that was not found is a fault when that side of it is read. -/
def detach (t? : Option Nat) (side : Side) (names : List String) : Edit Nat := do
  let t ← found t? side.attribute
  modify (unlink · side t names)
  pure t

/-- The values held by a tensor; a tensor that is nothing or a variable has none. -/
def valuesOf (g : Netlist) (t : Option Nat) : Outcome Value :=
  match t with
  | none => .error (.noAttribute "NoneType" "values")
  | some i =>
    match (g.tensor i).payload with
    | .constant v => .ok v
    | .variable .. => .error (.noAttribute "Variable" "values")

/-- The shape of a value that has one. -/
def shapeOf (v : Value) : Outcome (List Nat) :=
  match v with
  | .array t => .ok t.dims
  | _ => .error (.noAttribute v.typeName "shape")

/-- One dimension of a shape; past the rank is a fault. -/
def dimAt (dims : List Nat) (i : Nat) : Outcome Nat :=
  match dims[i]? with
  | some d => .ok d
  | none => .error .shapeIndexOutOfRange

/-- The element type of a value's array, if it is one. -/
def dtypeOf (v : Value) : Option DType :=
  match v with
  | .array t => some t.dtype
  | _ => none

/-! ### Values as array operands -/

/-- A text read as a float (see `Text.readFloat?`); any other text is a fault. -/
def floatOfText (s : String) : Outcome Float :=
  match Text.readFloat? s with
  | some x => .ok x
  | none => .error (.notAFloat s)

/-- An integer read as a float: the nearest double, unless it is beyond the largest one. -/
def floatOfInt (n : Int) : Outcome Float :=
  let x := Binary.binary64.ofInt n
  if Binary.isFinite x then .ok x else .error .intTooLargeForFloat

/-- One element read as a float. -/
def floatOfLeaf (v : Value) : Outcome Float :=
  match v with
  | .float x => .ok x
  | .int n => floatOfInt n
  | .bool b => .ok (if b then 1.0 else 0.0)
  | .none => .ok Binary.nan
  | .str s => floatOfText s
  | _ => .error (.notARealNumber v.typeName)

/-- A value read as an array of a float type: numbers, texts of numbers, nothing (a NaN) and
nested lists of them. -/
def floatArray (dtype : DType) (v : Value) : Outcome Tensor := do
  match v with
  | .array t => pure (t.astype dtype)
  | .list _ =>
    let (dims, ragged) := v.nestedShape
    if ragged then throw (.ragged (dims.length) dims)
    let xs ← v.leaves.mapM floatOfLeaf
    pure { dtype, dims, elems := xs.map fun x => Scalar.cast dtype (.real x) }
  | _ => do
    let x ← floatOfLeaf v
    pure (Tensor.scalar dtype (.real x))

/-- The element type a list of plain values is read in: booleans alone stay booleans,
integers and booleans give `int64`, any float gives `float64`. -/
def listType (xs : List Value) : DType :=
  if xs.all (fun v => match v with | .bool _ => true | _ => false) then .bool
  else if xs.all (fun v => match v with | .bool _ | .int _ => true | _ => false) then .int64
  else .float64

/-- A value as an operand of arithmetic with an array of element type `other` under operator
`op`, on the right of it when `onRight`: arrays and numbers as they are, nested lists of
numbers as arrays. Ragged lists are a fault; a text, or lists holding one, has no loop of the
operator; any other value is a fault naming the element kind it met. -/
def operandOf (op : ArithOp) (other : DType) (onRight : Bool) (v : Value) : Outcome Operand :=
  let kind := if other.isFloat then "float" else if other == .bool then "bool" else "int"
  let noLoop (text : String) : Fault :=
    if onRight then .noUfuncLoop op.ufuncName other.name text
    else .noUfuncLoop op.ufuncName text other.name
  match v with
  | .array t => .ok (.tensor t)
  | .int n => .ok (.number (.int n))
  | .float x => .ok (.number (.real x))
  | .bool b => .ok (.number (.bool b))
  | .str _ => .error (noLoop (ElementKind.ofScalar v).name)
  | .list _ =>
    let (dims, ragged) := v.nestedShape
    let xs := v.leaves
    let elementKind := ElementKind.ofScalars xs
    if ragged then .error (.ragged dims.length dims)
    else if elementKind matches .text _ then .error (noLoop elementKind.name)
    else if !xs.all (fun x => match x with | .bool _ | .int _ | .float _ => true | _ => false) then
      .error (.unsupportedOperand op.symbol kind "list")
    else
      let dtype := listType xs
      let elems := xs.map fun x => match x with
        | .bool b => Scalar.cast dtype (.bool b)
        | .int n => Scalar.cast dtype (.int n)
        | .float f => Scalar.cast dtype (.real f)
        | _ => .int 0
      .ok (.tensor { dtype, dims, elems })
  | _ => .error (.unsupportedOperand op.symbol kind v.typeName)

end Fusion

end OnnxFusion
