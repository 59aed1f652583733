import OnnxFusion.Netlist.Probe
import OnnxFusion.Netlist.Freeze
import OnnxFusion.Netlist.Import
import OnnxFusion.Model.Initializers
import OnnxFusion.Inference.Session
/-!
# Editing stored models

Each edit loads a model from the file table, changes it, and stores the result under a new
path: exposing node outputs and freezing inputs work on the netlist and store it as an
exported netlist; giving initializers private copies works on the document and stores a
plain model.
-/

set_option autoImplicit false

namespace OnnxFusion

namespace Edits

/-- The netlist of the model at a path. -/
def netlistAt (files : FileTable) (path : String) : Outcome Netlist := do
  pure ((← files.load path).toNetlist Netlist.ofGraphDef)

/-- Exposes node outputs of the model at `src` and saves it at `dst`; returns the names of
the nodes chosen by operator type. -/
def exposeOutputs (files : FileTable) (src dst : String) (opType names : Value) :
    Outcome (FileTable × List String) := do
  if !opType.isFalsy && !names.isFalsy then throw .bothSelectors
  let g ← netlistAt files src
  let (g, chosen) ← g.exposeOutputs opType names
  pure (files.put dst (.netlist g), chosen)

/-- Freezes inputs of the model at `src` into constants and saves it at `dst`. -/
def freezeInputs (files : FileTable) (src dst : String) (constants : List (String × Tensor))
    (unused : Value) : Outcome FileTable := do
  let g ← netlistAt files src
  let g ← g.freezeInputs constants unused
  pure (files.put dst (.netlist g))

/-- The listing of the inputs left in the model at a path. -/
def remainingInputs (files : FileTable) (path : String) : Outcome String := do
  pure (← Session.open? files path).inputListing

/-- Gives every use of an initializer its own copy and saves the plain model at `dst`. -/
def privateInitializers (files : FileTable) (src dst : String) : Outcome FileTable := do
  match ← files.load src with
  | .document g => pure (files.put dst (.document g.withPrivateInitializers))
  | .netlist n => pure (files.put dst (.netlist n))

end Edits

end OnnxFusion
