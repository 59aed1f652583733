import OnnxFusion.Store
import OnnxFusion.Netlist.Import
import OnnxFusion.Text.Literal
/-!
# Scripted inference sessions

No model is ever executed. A session opens a stored model and describes its graph inputs
and outputs (name, shape, element type); running it returns, for each requested output
name, the array scripted for that model. A model document without a shape for an input or output
describes it with no dimensions; a netlist tensor without one has no shape at all.

An element type is shown as the runtime names it: `tensor(float)` for float32,
`tensor(double)` for float64, `tensor(<name>)` for the others.
-/

set_option autoImplicit false

namespace OnnxFusion

/-- A graph input or output as a session describes it. -/
structure TensorSpec where
  name : String
  shape : Option (List Dim)
  dtype : Option String
  deriving Inhabited

namespace TensorSpec

/-- The runtime's name of an element type. -/
def typeText (p : TensorSpec) : String :=
  match p.dtype with
  | some "float32" => "tensor(float)"
  | some "float64" => "tensor(double)"
  | some t => "tensor(" ++ t ++ ")"
  | none => "tensor(undefined)"

/-- A dimension as a literal: an integer, a quoted name, or `None`. -/
def dimLiteral : Dim → String
  | .size n => toString n
  | .param s => Text.literal s
  | .unknown => "None"

/-- The shape as a list literal, or `None`. -/
def shapeLiteral (p : TensorSpec) : String :=
  match p.shape with
  | some ds => "[" ++ ", ".intercalate (ds.map dimLiteral) ++ "]"
  | none => "None"

end TensorSpec

namespace Netlist

/-- The description of a tensor object. -/
def spec (g : Netlist) (t : Nat) : TensorSpec :=
  let x := g.tensor t
  match x.payload with
  | .variable dtype shape => { name := x.name, shape, dtype }
  | .constant (.array a) =>
    { name := x.name, shape := some (a.dims.map fun (d : Nat) => Dim.size (Int.ofNat d)),
      dtype := some a.dtype.name }
  | .constant _ => { name := x.name, shape := none, dtype := none }

end Netlist

namespace StoredModel

/-- The graph inputs of a stored model. -/
def inputSpecs (m : StoredModel) : List TensorSpec :=
  match m with
  | .document g => g.inputs.map fun vi => { name := vi.name, shape := some (vi.shape.getD []), dtype := some vi.dtype }
  | .netlist n => n.inputs.map n.spec

/-- The graph outputs of a stored model. -/
def outputSpecs (m : StoredModel) : List TensorSpec :=
  match m with
  | .document g => g.outputs.map fun vi => { name := vi.name, shape := some (vi.shape.getD []), dtype := some vi.dtype }
  | .netlist n => n.outputs.map n.spec

end StoredModel

/-- Scripted outputs: for each model path, arrays by output name. -/
abbrev Script := List (String × List (String × Tensor))

/-- A feed given to a session: the model path and the named input arrays. -/
structure Call where
  model : String
  feed : List (String × Tensor)
  deriving Inhabited

/-- An open session. -/
structure Session where
  path : String
  model : StoredModel
  deriving Inhabited

namespace Session

/-- Opens the model at a path. -/
def open? (files : FileTable) (path : String) : Outcome Session := do
  pure { path, model := ← files.load path }

/-- The scripted arrays for the requested output names; a name with no scripted array is a
fault. -/
def outputs (s : Session) (script : Script) (names : List String) : Outcome (List Tensor) :=
  let table := ((script.find? (·.1 == s.path)).map (·.2)).getD []
  names.mapM fun n => match (table.find? (·.1 == n)).map (·.2) with
    | some t => pure t
    | none => throw (.missingKey n)

/-- The listing of the inputs that remain in a model, one line per input. -/
def inputListing (s : Session) : String :=
  "模型剩余输入（已移除常量输入）：\n" ++ String.join (s.model.inputSpecs.map fun p =>
    "  - " ++ p.name ++ ": shape=" ++ p.shapeLiteral ++ ", dtype=" ++ p.typeText ++ "\n")

end Session

end OnnxFusion
