import OnnxFusion.Netlist.Json
/-!
# Stored models and the file table

Models are kept in a table from paths to models, in the order the paths were first given.
A model is stored as a document graph (as read from a request, or saved as a plain model
after editing the document) or as an exported netlist (saved after editing the netlist).
Writing a path again replaces its model in place; the table remembers which paths were
written, so that what a run saved can be reported.
-/

set_option autoImplicit false

namespace OnnxFusion

/-- A model as the file table holds it. -/
inductive StoredModel where
  | document (g : GraphDef)
  | netlist (n : Netlist)
  deriving Inhabited

namespace StoredModel

/-- The netlist of a stored model: a document is imported, a netlist is itself. -/
def toNetlist (m : StoredModel) (importDoc : GraphDef → Netlist) : Netlist :=
  match m with
  | .document g => importDoc g
  | .netlist n => n

/-- The saved form of a stored model: `{"gs": ...}` for a netlist, `{"proto": ...}` with
nodes, initializers and the names of the graph inputs and outputs for a document. -/
def toJson (m : StoredModel) : Json :=
  match m with
  | .netlist n => .obj [("gs", n.toJson)]
  | .document g =>
    .obj [("proto", .obj [
      ("nodes", .arr (g.nodes.map fun n => .obj [("op_type", .str n.opType), ("name", .str n.name),
        ("inputs", .arr (n.inputs.map .str)), ("outputs", .arr (n.outputs.map .str))])),
      ("initializers", .arr (g.initializers.map fun (name, t) =>
        .obj [("name", .str name), ("values", t.toJson)])),
      ("inputs", .arr (g.inputs.map (.str ·.name))),
      ("outputs", .arr (g.outputs.map (.str ·.name)))])]

end StoredModel

/-- Paths and their models, and the paths written so far. -/
structure FileTable where
  entries : List (String × StoredModel) := []
  written : List String := []
  deriving Inhabited

namespace FileTable

/-- A table of models given up front; nothing is written yet. -/
def ofList (entries : List (String × StoredModel)) : FileTable := { entries }

/-- The model at a path. -/
def get? (t : FileTable) (path : String) : Option StoredModel :=
  (t.entries.find? (·.1 == path)).map (·.2)

/-- The model at a path; a missing path is a fault. -/
def load (t : FileTable) (path : String) : Outcome StoredModel :=
  match t.get? path with
  | some m => .ok m
  | none => .error (.modelNotFound path)

/-- Stores a model at a path. -/
def put (t : FileTable) (path : String) (m : StoredModel) : FileTable :=
  let entries := if t.entries.any (·.1 == path) then
      t.entries.map (fun (p, x) => if p == path then (p, m) else (p, x))
    else t.entries ++ [(path, m)]
  { entries, written := if t.written.contains path then t.written else t.written ++ [path] }

/-- The written paths, sorted, each with its saved form. -/
def savedJson (t : FileTable) : Json :=
  let paths := t.written.mergeSort (fun a b => decide (a ≤ b))
  .obj (paths.filterMap fun p => (t.get? p).map fun m => (p, m.toJson))

end FileTable

end OnnxFusion
