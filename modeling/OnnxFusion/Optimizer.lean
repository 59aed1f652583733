import OnnxFusion.Fusion.Executor
import OnnxFusion.Matcher
import OnnxFusion.Store
import OnnxFusion.Netlist.Import
import OnnxFusion.Model.Naming
/-!
# The optimizer: load, match, fuse, save

Loading a model names its unnamed nodes, builds the dataflow view for matching and the
netlist for editing. Optimizing matches the whole view, hands every match to the executor,
and replaces the stored model by the fused netlist, or by nothing when no fusion ran.
It succeeds when there was a match and every match was carried out. Saving writes the
stored model, if there is one.
-/

set_option autoImplicit false

namespace OnnxFusion

/-- A loaded model: its stored form (none after an optimization that fused nothing) and the
dataflow view it was matched on. -/
structure LoadedModel where
  stored : Option StoredModel
  view : Dataflow.Graph
  deriving Inhabited

namespace LoadedModel

/-- The text a loaded model is shown as. -/
def describe (m : LoadedModel) : String :=
  "ONNXModel(ir_version=" ++ (if m.stored.isSome then "8" else "None") ++ ", graph=" ++
    m.view.describe ++ ")"

end LoadedModel

/-- The optimizer's state. -/
structure Optimizer where
  allowOverlap : Bool := false
  registry : Registry := Registry.initial
  model : Option LoadedModel := none
  executor : Executor := {}
  deriving Inhabited

/-- What one optimization found and whether it succeeded. -/
structure Report where
  found : List Match
  success : Bool

namespace Optimizer

/-- The document graph of a stored model with its nodes named. -/
def namedGraph (m : StoredModel) : GraphDef :=
  match m with
  | .document g => g.withNames
  | .netlist n =>
    { nodes := n.nodes.toList.map (fun x =>
        { opType := x.op, name := x.name, inputs := x.inputs.map (n.tensor · |>.name),
          outputs := x.outputs.map (n.tensor · |>.name), attributes := [] }),
      initializers := [], inputs := [], outputs := [], valueInfo := [] }

/-- Loads the model at a path. -/
def load (o : Optimizer) (files : FileTable) (path : String) : Outcome (Optimizer × GraphDef) := do
  let stored ← files.load path
  let g := namedGraph stored
  let view ← Dataflow.Graph.ofDef g
  let model : LoadedModel := { stored := some (.document g), view }
  pure ({ o with model := some model, executor := { graph := some (Netlist.ofGraphDef g) } }, g)

/-- Matches the loaded model and fuses every match. -/
def optimize (o : Optimizer) : Outcome (Optimizer × Report) :=
  match o.model with
  | none => .ok (o, { found := [], success := false })
  | some m =>
    match matchAll m.view o.registry o.allowOverlap with
    | .error f => .error f
    | .ok found =>
      match o.executor.executeAll (found.map Match.toReplacement) with
      | .error f => .error f
      | .ok (e, ok) =>
        let model : LoadedModel := { stored := e.model?.map StoredModel.netlist, view := m.view }
        .ok ({ o with executor := e, model := some model },
          { found, success := !found.isEmpty && ok })

/-- Saves the stored model at a path; false when there is none. -/
def save (o : Optimizer) (files : FileTable) (path : String) : FileTable × Bool :=
  match o.model with
  | some { stored := some s, .. } => (files.put path s, true)
  | _ => (files, false)

/-- The text of the loaded model, or `None`. -/
def describeModel (o : Optimizer) : String :=
  match o.model with
  | some m => m.describe
  | none => "None"

end Optimizer

end OnnxFusion
