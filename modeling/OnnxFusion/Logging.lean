import OnnxFusion.Value.Basic
/-!
# The root logger

The tool logs through the root logger. Setting it up takes a level number: `0` is DEBUG
(10), `1` INFO (20), `2` WARNING (30), `3` ERROR (40), and any other key (a number equal to
one of these counts as it) is INFO. Every set-up sets the root level; the first one also
attaches a console handler and a rotating file handler, both at that level, and starts a log
file in the `logs` directory. A later set-up keeps the handlers it finds, at their levels.

The log file is named by the second logging starts in, so set-ups within one run share one
file. Resetting the root logger removes its handlers and restores the WARNING level; files
written stay.
-/

set_option autoImplicit false

namespace OnnxFusion

/-- The kinds of log handlers. -/
inductive HandlerKind
  | console
  | rotatingFile
  deriving DecidableEq, Inhabited

/-- The class name of a handler kind. -/
def HandlerKind.className : HandlerKind → String
  | .console => "StreamHandler"
  | .rotatingFile => "RotatingFileHandler"

/-- A handler attached to the root logger. -/
structure LogHandler where
  kind : HandlerKind
  level : Nat
  deriving Inhabited

/-- The root logger: its level, its handlers and the number of log files written. -/
structure RootLogger where
  level : Nat
  handlers : List LogHandler
  logFiles : Nat
  deriving Inhabited

namespace Logging

/-- The level of the root logger before any set-up. -/
def warning : Nat := 30

/-- The line layout of both handlers. -/
def lineFormat : String :=
  "%(asctime)s - %(levelname)-5s - %(name)-26s " ++
    "- [%(filename)-20s:%(funcName)-10s:%(lineno)4d] - %(message)s"

/-- The time layout of both handlers. -/
def dateFormat : String := "%Y-%m-%d %H:%M:%S"

/-- The size at which the log file rolls over. -/
def maxBytes : Nat := 1048576

/-- The number of rolled-over files kept. -/
def backupCount : Nat := 3

/-- The text encoding of the log file. -/
def encoding : String := "utf-8"

/-- The directory of the log files. -/
def directory : String := "logs"

/-- The level a set-up key selects. -/
def levelOf (key : Int) : Nat :=
  match key with
  | 0 => 10
  | 1 => 20
  | 2 => 30
  | 3 => 40
  | _ => 20

/-- The level a dynamic key selects; lists and records cannot be keys. -/
def levelOfValue (v : Value) : Outcome Nat :=
  match v with
  | .int n => .ok (levelOf n)
  | .bool b => .ok (levelOf (if b then 1 else 0))
  | .float x =>
    .ok (if x == 0.0 then 10 else if x == 1.0 then 20 else if x == 2.0 then 30
      else if x == 3.0 then 40 else 20)
  | .list _ | .dict _ | .array _ => .error (.unhashable v.typeName)
  | _ => .ok 20

end Logging

namespace RootLogger

/-- The root logger before any set-up. -/
def initial : RootLogger := { level := Logging.warning, handlers := [], logFiles := 0 }

/-- Sets the logger up at a level. -/
def setup (r : RootLogger) (level : Nat) : RootLogger :=
  if r.handlers.isEmpty then
    { level, handlers := [⟨.console, level⟩, ⟨.rotatingFile, level⟩], logFiles := max r.logFiles 1 }
  else { r with level }

/-- Removes the handlers and restores the initial level. -/
def reset (r : RootLogger) : RootLogger := { initial with logFiles := r.logFiles }

/-- The class names of the handlers, sorted. -/
def handlerNames (r : RootLogger) : List String :=
  (r.handlers.map (·.kind.className)).mergeSort (fun a b => decide (a ≤ b))

end RootLogger

end OnnxFusion
