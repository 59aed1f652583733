import OnnxFusion.Cli.Run
import OnnxFusion.Model.Json
import OnnxFusion.Json.Read
import OnnxFusion.Json.Write
/-!
# The command-line program

`opt INPUT OUTPUT [-l LOG_LEVEL]` reads the model at `INPUT` (a graph document in its JSON
form), fuses the patterns it finds, and writes the optimized model to `OUTPUT` in its saved
JSON form. Help and reading errors are printed as the command line describes them, with exit
codes 0 and 2; a fault while loading or optimizing is printed as `Kind: message` with exit
code 1.

This module is the program's only contact with files and the terminal; the work is done by
`runCommand`.
-/

set_option autoImplicit false

namespace OnnxFusion.Program

/-- The store holding the input model read from disk, when it can be read. -/
def readStore (path : String) : IO FileTable := do
  let text ← try IO.FS.readFile path catch _ => return {}
  match Json.parse text with
  | .error _ => return {}
  | .ok j =>
    match GraphDef.ofJson j with
    | .ok g => return FileTable.ofList [(path, .document g)]
    | .error _ => return {}

/-- Writes every model the run saved. -/
def writeSaved (t : FileTable) : IO Unit :=
  for p in t.written do
    match t.get? p with
    | some m => IO.FS.writeFile p (Json.render m.toJson ++ "\n")
    | none => pure ()

end OnnxFusion.Program

open OnnxFusion in
/-- Runs the optimizer on the command line. -/
def main (args : List String) : IO UInt32 := do
  let store ← match Cli.read args with
    | .run inv =>
      match pathOf inv.input with
      | .ok path => Program.readStore path
      | .error _ => pure {}
    | _ => pure {}
  let r := runCommand "opt" args store
  IO.print r.stdout
  IO.eprint r.stderr
  match r.fault with
  | some f =>
    IO.eprintln (f.kind ++ ": " ++ f.message)
    return 1
  | none =>
    Program.writeSaved r.store
    return UInt32.ofNat (r.exit.getD 0)
