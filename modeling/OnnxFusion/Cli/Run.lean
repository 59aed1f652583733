import OnnxFusion.Cli.Args
import OnnxFusion.Logging
import OnnxFusion.Optimizer
/-!
# Running the command

`runCommand prog argv store` reads the command line. Help goes to the standard output with
exit code 0 and a reading error to the standard error with exit code 2, before anything else
happens. Otherwise the root logger is set up at the requested level, the input model is
loaded from the store and optimized without overlapping matches, and the result is saved at
the output path when the optimization succeeded. A fault while loading or optimizing ends the
run; the logger and the store stay as they were at that moment. A level, input or output
that was read as an empty list cannot be a key: it faults where it is first used.
-/

set_option autoImplicit false

namespace OnnxFusion

/-- What a run of the command leaves behind. -/
structure CommandResult where
  /-- The exit code; none when the command returned normally or a fault escaped. -/
  exit : Option Nat
  stdout : String
  stderr : String
  logger : RootLogger
  store : FileTable
  fault : Option Fault
  deriving Inhabited

/-- A path as a key of the store: a text; anything else cannot be hashed. -/
def pathOf (v : Value) : Outcome String :=
  match v with
  | .str s => .ok s
  | _ => .error (.unhashable v.typeName)

/-- Runs the command line under a program name on a store of models. -/
def runCommand (prog : String) (argv : List String) (store : FileTable) : CommandResult :=
  let quiet : CommandResult :=
    { exit := none, stdout := "", stderr := "", logger := RootLogger.initial, store, fault := none }
  match Cli.read argv with
  | .help => { quiet with exit := some 0, stdout := Cli.helpText prog }
  | .error m => { quiet with exit := some 2, stderr := Cli.errorText prog m }
  | .run inv =>
    match Logging.levelOfValue inv.logLevel with
    | .error f => { quiet with fault := some f }
    | .ok level =>
      let ran : CommandResult := { quiet with logger := RootLogger.initial.setup level }
      let o : Optimizer := { allowOverlap := false }
      match pathOf inv.input >>= o.load store with
      | .error f => { ran with fault := some f }
      | .ok (o, _) =>
        match o.optimize with
        | .error f => { ran with fault := some f }
        | .ok (o, rep) =>
          if !rep.success then ran
          else match pathOf inv.output with
            | .error f => { ran with fault := some f }
            | .ok path => { ran with store := (o.save store path).1 }

end OnnxFusion
