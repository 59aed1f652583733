import OnnxFusion.Text.Number
import OnnxFusion.Text.Literal
import OnnxFusion.Value.Basic
/-!
# The command line

The command takes two positional arguments, `input_model` and `output_model`, and the
options `-h`/`--help` and `-l`/`--log-level LOG_LEVEL` (an integer, 1 by default).

Arguments are read in two passes. The first pass classifies every argument: after `--`
everything is positional; an empty text, a text not starting with `-`, a lone `-`, a
negative number and a text with a blank are positional; an option string, an option string
followed by `=value`, a unique prefix of a long option (`--log`), and a short option with
letters attached (`-l3`, `-hx`) are options; a prefix matching several options is an error;
any other `-text` is an unknown option.

The second pass goes left to right. Before each option, the positionals still waiting take
the arguments in front of it: each takes one argument with any separators around it, and as
many positionals as find an argument are filled. Arguments no positional takes are left
over. An option is then read: `-l` takes the attached text or the next argument as its
value; `-h` with letters attached reads them as further short options (`-hl 3` is
`-h -l 3`, and `-hl=3` gives `-l` the value `=3`), and a letter that names no option is an
error naming the letters left. The options of one argument are taken only once it is read
whole, in order, so help shown by `-h` comes before an invalid value of a later `-l`. After
the last option the waiting positionals take what remains.

The texts an argument takes lose their first `--`. One text left is the value (`-l`
converts it to an integer); no text left makes the value an empty list, unconverted, as
when `-l--` or a positional `--` after the separator is given.

Errors stop the reading: an option without its value, a value that is not an integer, an
explicit value given to `-h`, missing positionals (after the whole line is read) and, last,
leftover arguments. `-h` stops the reading with the help text.
-/

set_option autoImplicit false

namespace OnnxFusion

namespace Cli

/-- The options of the command. -/
inductive Opt
  | help
  | logLevel
  deriving DecidableEq, Inhabited

/-- The option strings in the order they are declared. -/
def optionStrings : List (String × Opt) :=
  [("-h", .help), ("--help", .help), ("-l", .logLevel), ("--log-level", .logLevel)]

/-- The name of an option in messages. -/
def Opt.display : Opt → String
  | .help => "-h/--help"
  | .logLevel => "-l/--log-level"

/-- How a command-line argument reads. -/
inductive Token
  /-- A positional argument. -/
  | plain
  /-- The separator `--`; everything after it is positional. -/
  | separator
  /-- An option (none when unknown), as spelled, with the value attached to it (after `=`
  or after a short option's letter). -/
  | flag (opt : Option Opt) (spelled : String) (attached : Option String)
  deriving Inhabited

/-- The option of an exact option string. -/
def optionOf? (s : String) : Option Opt := (optionStrings.find? (·.1 == s)).map (·.2)

/-- Whether a text is a negative number: `-` then digits, or digits around a point with
digits after it, possibly followed by one line feed; digits of any script count. -/
def negativeNumber (s : String) : Bool :=
  let body := match s.toList.reverse with
    | '\n' :: r => r.reverse
    | _ => s.toList
  match body with
  | '-' :: rest =>
    let (whole, frac) := rest.span Text.isDecimal
    match frac with
    | [] => !whole.isEmpty
    | '.' :: ds => !ds.isEmpty && ds.all Text.isDecimal
    | _ => false
  | _ => false

/-- The text before the first `=` and, when there is one, the text after it. -/
def splitEq (s : String) : String × Option String :=
  match s.splitOn "=" with
  | [] => (s, none)
  | [a] => (a, none)
  | a :: rest => (a, some ("=".intercalate rest))

/-- The readings of an argument as an option prefix. -/
def optionTuples (s : String) : List (Opt × String × Option String) :=
  if s.startsWith "--" then
    let (pre, val) := splitEq s
    optionStrings.filterMap fun (o, opt) =>
      if o.startsWith pre then some (opt, o, val) else none
  else
    let short := (s.take 2).toString
    let rest := (s.drop 2).toString
    optionStrings.filterMap fun (o, opt) =>
      if o == short then some (opt, o, some rest)
      else if o.startsWith s then some (opt, o, none)
      else none

/-- Classifies one argument (before any separator); a prefix of several options is an
error message. -/
def classify (s : String) : Except String Token :=
  if s.isEmpty || !s.startsWith "-" then .ok .plain
  else match optionOf? s with
    | some o => .ok (.flag (some o) s none)
    | none =>
      if s.length == 1 then .ok .plain
      else
        let (pre, val) := splitEq s
        match val, optionOf? pre with
        | some v, some o => .ok (.flag (some o) pre (some v))
        | _, _ =>
          match optionTuples s with
          | [(o, spelled, att)] => .ok (.flag (some o) spelled att)
          | [] =>
            if negativeNumber s || s.contains ' ' then .ok .plain
            else .ok (.flag none s none)
          | many =>
            .error ("ambiguous option: " ++ s ++ " could match " ++
              ", ".intercalate (many.map (·.2.1)))

/-- Classifies all arguments. -/
def classifyAll : Bool → List String → Except String (List Token)
  | _, [] => .ok []
  | true, _ :: rest => do pure (.plain :: (← classifyAll true rest))
  | false, s :: rest =>
    if s == "--" then do pure (.separator :: (← classifyAll true rest))
    else do
      let t ← classify s
      pure (t :: (← classifyAll false rest))

/-- The arguments as the command reads them: texts and an integer, or empty lists. -/
structure Invocation where
  input : Value
  output : Value
  logLevel : Value
  deriving Inhabited

/-- The result of reading a command line. -/
inductive Reading
  /-- Run with these arguments. -/
  | run (inv : Invocation)
  /-- Show the help text. -/
  | help
  /-- Stop with an error message. -/
  | error (message : String)
  deriving Inhabited

/-- The state of the second pass. -/
structure Scan where
  /-- Positionals still to fill, by name. -/
  waiting : List String
  /-- Values of filled positionals, in order. -/
  filled : List Value
  logLevel : Value
  leftover : List String
  deriving Inhabited

/-- Why the second pass stopped early. -/
inductive Stop
  | help
  | error (message : String)

/-- How a token shows in the pattern the positionals are matched against. -/
inductive Mark
  | arg
  | separator
  | option
  deriving DecidableEq

/-- The mark of a token. -/
def Token.mark : Token → Mark
  | .plain => .arg
  | .separator => .separator
  | .flag .. => .option

/-- The number of marks one positional takes from the front: any separators, one argument,
any separators. -/
def groupLength (marks : List Mark) : Option Nat :=
  let lead := (marks.takeWhile (· == .separator)).length
  match marks.drop lead with
  | .arg :: rest => some (lead + 1 + (rest.takeWhile (· == .separator)).length)
  | _ => none

/-- The numbers of marks that `k` positionals take in turn, if all of them find an argument. -/
def groupLengths (marks : List Mark) : Nat → Option (List Nat)
  | 0 => some []
  | k + 1 => do
    let n ← groupLength marks
    let ns ← groupLengths (marks.drop n) k
    pure (n :: ns)

/-- The numbers of marks that the most positionals able to find an argument take, trying
all `k` and then fewer. -/
def partialLengths (marks : List Mark) : Nat → List Nat
  | 0 => []
  | k + 1 => (groupLengths marks (k + 1)).getD (partialLengths marks k)

/-- The value of a positional from its arguments, the first `--` dropped: the one text
left, or an empty list. -/
def positionalValue (taken : List String) : Value :=
  match taken.erase "--" with
  | [v] => .str v
  | _ => .list []

/-- Fills waiting positionals from the arguments at `i`; returns the index after them. -/
def consumePositionals (args : Array String) (toks : Array Token) (s : Scan) (i : Nat) : Scan × Nat :=
  let marks := (toks.toList.drop i).map Token.mark
  let lengths := partialLengths marks s.waiting.length
  let (values, j) := lengths.foldl (fun (acc : List Value × Nat) n =>
    (acc.1 ++ [positionalValue ((args.toList.drop acc.2).take n)], acc.2 + n)) ([], i)
  ({ s with waiting := s.waiting.drop lengths.length, filled := s.filled ++ values }, j)

/-- Reads the value of `-l`: an integer, or an empty list when the text is `--`. -/
def readLevel (v : String) : Except Stop Value :=
  if v == "--" then .ok (.list [])
  else match Text.readInt? v with
    | some n => .ok (.int n)
    | none => .error (.error ("argument -l/--log-level: invalid int value: " ++ Text.literal v))

/-- The error of an explicit value given to `-h`. -/
def ignoredValue (v : String) : Stop :=
  .error ("argument -h/--help: ignored explicit argument " ++ Text.literal v)

/-- What an option argument at index `i` asks for. A short flag with letters attached reads
them as further short options; a letter that names no option is an error naming the letters
from it on. Returns the options to take in order (with the value of `-l`) and the index
after the option and its value. -/
def optionCluster (args : Array String) (toks : Array Token) (i : Nat) :
    Nat → Opt → String → Option String → List (Opt × String) →
      Except Stop (List (Opt × String) × Nat)
  | 0, _, _, _, acc => .ok (acc, i + 1)
  | fuel + 1, opt, spelled, explicit, acc =>
    match opt, explicit with
    | .logLevel, some v => .ok (acc ++ [(.logLevel, v)], i + 1)
    | .logLevel, none =>
      match toks[i + 1]? with
      | some .plain => .ok (acc ++ [(.logLevel, args.getD (i + 1) "")], i + 2)
      | _ => .error (.error "argument -l/--log-level: expected one argument")
    | .help, none => .ok (acc ++ [(.help, "")], i + 1)
    | .help, some v =>
      if spelled.startsWith "--" || v.isEmpty then .error (ignoredValue v)
      else
        let acc := acc ++ [(.help, "")]
        let short := "-" ++ (v.take 1).toString
        let rest := (v.drop 1).toString
        match optionOf? short with
        | some next =>
          let explicit := if rest.isEmpty then none else some rest
          optionCluster args toks i fuel next short explicit acc
        | none => .error (ignoredValue v)

/-- Takes the options asked for, in order: help stops the reading, `-l` reads its value. -/
def takeAll (s : Scan) : List (Opt × String) → Except Stop Scan
  | [] => .ok s
  | (.help, _) :: _ => .error .help
  | (.logLevel, v) :: rest => do takeAll { s with logLevel := ← readLevel v } rest

/-- Consumes the option at index `i`; returns the scan and the index after it. -/
def consumeOption (args : Array String) (toks : Array Token) (s : Scan) (i : Nat) :
    Except Stop (Scan × Nat) :=
  match toks.getD i .plain with
  | .flag (some opt) spelled explicit => do
    let (taken, j) ← optionCluster args toks i ((args.getD i "").length + 1) opt spelled explicit []
    pure (← takeAll s taken, j)
  | _ => .ok ({ s with leftover := s.leftover ++ [args.getD i ""] }, i + 1)

/-- The second pass from index `i`, with at most `fuel` steps: positionals up to the next
option, arguments no positional takes left over, then the option. -/
def scanFrom (args : Array String) (toks : Array Token) : Nat → Scan → Nat → Except Stop Scan
  | 0, s, _ => .ok s
  | fuel + 1, s, i =>
    let options := (List.range toks.size).filter fun k => k ≥ i && toks.getD k .plain matches .flag ..
    match options.head? with
    | none =>
      let (s, j) := consumePositionals args toks s i
      .ok { s with leftover := s.leftover ++ (args.toList.drop j) }
    | some next =>
      let (s', j) := if i != next then consumePositionals args toks s i else (s, i)
      if j > i then scanFrom args toks fuel s' j
      else
        let s' := { s' with leftover := s'.leftover ++ ((args.toList.drop i).take (next - i)) }
        match consumeOption args toks s' next with
        | .error e => .error e
        | .ok (s'', k) => scanFrom args toks fuel s'' k

/-- Reads a command line. -/
def read (argv : List String) : Reading :=
  match classifyAll false argv with
  | .error m => .error m
  | .ok toks =>
    let args := argv.toArray
    let start : Scan := { waiting := ["input_model", "output_model"], filled := [], logLevel := .int 1, leftover := [] }
    match scanFrom args toks.toArray (argv.length + 1) start 0 with
    | .error .help => .help
    | .error (.error m) => .error m
    | .ok s =>
      if !s.waiting.isEmpty then .error ("the following arguments are required: " ++ ", ".intercalate s.waiting)
      else if !s.leftover.isEmpty then .error ("unrecognized arguments: " ++ " ".intercalate s.leftover)
      else .run { input := s.filled.getD 0 (.str ""), output := s.filled.getD 1 (.str ""), logLevel := s.logLevel }

/-- The usage line. -/
def usage (prog : String) : String :=
  "usage: " ++ prog ++ " [-h] [-l LOG_LEVEL] input_model output_model\n"

/-- The help text. -/
def helpText (prog : String) : String :=
  usage prog ++ "\nOptimize an ONNX model and save the result.\n\npositional arguments:\n" ++
    "  input_model           Path to input ONNX model to optimize\n" ++
    "  output_model          Path where the optimized ONNX model will be saved\n\noptions:\n" ++
    "  -h, --help            show this help message and exit\n" ++
    "  -l LOG_LEVEL, --log-level LOG_LEVEL\n" ++
    "                        Log level (0=DEBUG, 1=INFO, 2=WARNING, 3=ERROR)\n"

/-- The text of a command-line error. -/
def errorText (prog message : String) : String :=
  usage prog ++ prog ++ ": error: " ++ message ++ "\n"

end Cli

end OnnxFusion
