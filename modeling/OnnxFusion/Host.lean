import OnnxFusion.Inference.Session
import OnnxFusion.Workspace
/-!
# The host a tool runs on

The analysis tools act on a host: the stored models, the scripted sessions, the working
directory, the calls made to sessions so far and the text printed so far. A step of a tool
may fail; the host as it was at the failure is kept, so the calls made and the text printed
before a fault are still seen.
-/

set_option autoImplicit false

namespace OnnxFusion

/-- Everything a tool can see and change. -/
structure Host where
  store : FileTable
  script : Script
  disk : Workspace
  calls : List Call
  printed : String
  deriving Inhabited

/-- A step on the host that may fail. -/
abbrev HostM := ExceptT Fault (StateM Host)

namespace Host

/-- A host with the given models, scripts and files, no calls and nothing printed. -/
def start (store : FileTable) (script : Script) (disk : Workspace) : Host :=
  { store, script, disk, calls := [], printed := "" }

/-- A step that only computes. -/
def lift {α : Type} (r : Outcome α) : HostM α :=
  match r with
  | .ok a => pure a
  | .error e => throw e

/-- Prints a line. -/
def print (s : String) : HostM Unit := modify fun h => { h with printed := h.printed ++ s ++ "\n" }

/-- Changes the working directory by a step that may fail. -/
def onDisk (f : Workspace → Outcome Workspace) : HostM Unit := do
  let w ← lift (f (← get).disk)
  modify fun h => { h with disk := w }

/-- Removes a directory tree; what was removed before a failure stays removed. -/
def removeTree (path : String) : HostM Unit := do
  let (w, fault) := (← get).disk.removeTree path
  modify fun h => { h with disk := w }
  match fault with
  | some f => throw f
  | none => pure ()

/-- Opens a session on a stored model. -/
def openSession (path : String) : HostM Session := do
  lift (Session.open? (← get).store path)

/-- Runs a session: records the call, then returns the scripted outputs. -/
def run (s : Session) (names : List String) (feed : List (String × Tensor)) : HostM (List Tensor) := do
  modify fun h => { h with calls := h.calls ++ [{ model := s.path, feed }] }
  lift (s.outputs (← get).script names)

/-- Runs a step from a host: its result or fault, and the host after it. -/
def exec {α : Type} (h : Host) (step : HostM α) : Outcome α × Host := (step.run).run h

end Host

end OnnxFusion
