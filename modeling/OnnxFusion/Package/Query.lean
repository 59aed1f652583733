import OnnxFusion.Package.Metadata
import OnnxFusion.Fault
/-!
# Metadata queries

The build script answers metadata queries given as global options. Options are read in the
classic way: a run of arguments starting with `-` (not a lone `-`), ended by `--` or by the
first other argument. A long option may be abbreviated to a unique prefix and may carry a
value after `=` only when it takes one; short options `-v -q -n -h -V` may be grouped.

Reading the options fails first (usage text and the error). Short letters are declared as
one text with blanks between them, so a blank is read as a letter; it stands for no option
and fails with a missing key once the options are read.

When the options name display options, each one's value is printed on its own line, in the
order given (lists one item per line, keyword and platform lists joined by commas), and
nothing else happens; `--help-commands` before them all prints the listing of every command
and the usage text instead. Otherwise the arguments after the options are commands: the
first must be a name (a letter, then letters, digits and underscores), or the script stops
saying the name is invalid. With no command, `--help` prints the help of the global and
display options and the usage text; without it the script stops with its usage text and an
error.
-/

set_option autoImplicit false

namespace OnnxFusion

namespace Package

/-- The long options and whether each takes a value, in declaration order. -/
def longOptions : List (String × Bool) :=
  [("verbose", false), ("quiet", false), ("dry-run", false), ("help", false), ("no-user-cfg", false),
    ("command-packages", true), ("help-commands", false), ("name", false), ("version", false),
    ("fullname", false), ("author", false), ("author-email", false), ("maintainer", false),
    ("maintainer-email", false), ("contact", false), ("contact-email", false), ("url", false),
    ("license", false), ("licence", false), ("description", false), ("long-description", false),
    ("platforms", false), ("classifiers", false), ("keywords", false), ("provides", false),
    ("requires", false), ("obsoletes", false)]

/-- The short options and the long options they stand for. -/
def shortOptions : List (Char × String) :=
  [('v', "verbose"), ('q', "quiet"), ('n', "dry-run"), ('h', "help"), ('V', "version")]

/-- The usage text of the build script. -/
def usage : String :=
  "usage: setup.py [global_opts] cmd1 [cmd1_opts] [cmd2 [cmd2_opts] ...]\n" ++
    "   or: setup.py --help [cmd1 cmd2 ...]\n   or: setup.py --help-commands\n   or: setup.py cmd --help\n"

/-- Resolves a possibly abbreviated long option: its full name and whether it takes a value. -/
def resolveLong (opt : String) : Except String (String × Bool) :=
  let possible := longOptions.filter fun (o, _) => o.startsWith opt
  match possible.find? (·.1 == opt) with
  | some hit => .ok hit
  | none =>
    match possible with
    | [] => .error ("option --" ++ opt ++ " not recognized")
    | [hit] => .ok hit
    | _ => .error ("option --" ++ opt ++ " not a unique prefix")

/-- Reads the options: the option names in order and the arguments left. -/
def readOptions : Nat → List String → Except String (List String × List String)
  | 0, args => .ok ([], args)
  | fuel + 1, args =>
    match args with
    | [] => .ok ([], [])
    | a :: rest =>
      if a == "--" then .ok ([], rest)
      else if !a.startsWith "-" || a == "-" then .ok ([], args)
      else if a.startsWith "--" then do
        let body := (a.drop 2).toString
        let (opt, value) := match body.splitOn "=" with
          | o :: v :: more => (o, some ("=".intercalate (v :: more)))
          | _ => (body, none)
        let (full, takesValue) ← resolveLong opt
        let rest ← if takesValue then
            match value, rest with
            | some _, _ => pure rest
            | none, _ :: more => pure more
            | none, [] => throw ("option --" ++ full ++ " requires argument")
          else match value with
            | some _ => throw ("option --" ++ full ++ " must not have an argument")
            | none => pure rest
        let (names, left) ← readOptions fuel rest
        pure (full :: names, left)
      else do
        let shorts ← (a.drop 1).toString.toList.mapM fun c =>
          match shortOptions.find? (·.1 == c) with
          | some (_, full) => .ok full
          | none =>
            -- the letters are declared as one text with blanks between them, so a blank
            -- is accepted as a letter, one that stands for no option
            if c == ' ' then .ok " " else .error ("option -" ++ c.toString ++ " not recognized")
        let (names, left) ← readOptions fuel rest
        pure (shorts ++ names, left)

/-- The global options with their short letters and descriptions, as the help lists them. -/
def globalHelp : List (String × Option Char × String) :=
  [("verbose", some 'v', "run verbosely (default)"), ("quiet", some 'q', "run quietly (turns verbosity off)"),
    ("dry-run", some 'n', "don't actually do anything"), ("help", some 'h', "show detailed help message"),
    ("no-user-cfg", none, "ignore pydistutils.cfg in your home directory"),
    ("command-packages", none, "list of packages that provide distutils commands")]

/-- The display options with their short letters and descriptions, as the help lists them. -/
def displayHelp : List (String × Option Char × String) :=
  [("help-commands", none, "list all available commands"), ("name", none, "print package name"),
    ("version", some 'V', "print package version"), ("fullname", none, "print <package name>-<version>"),
    ("author", none, "print the author's name"), ("author-email", none, "print the author's email address"),
    ("maintainer", none, "print the maintainer's name"),
    ("maintainer-email", none, "print the maintainer's email address"),
    ("contact", none, "print the maintainer's name if known, else the author's"),
    ("contact-email", none, "print the maintainer's email address if known, else the author's"),
    ("url", none, "print the URL for this package"), ("license", none, "print the license of the package"),
    ("licence", none, "alias for --license"), ("description", none, "print the package description"),
    ("long-description", none, "print the long package description"),
    ("platforms", none, "print the list of platforms"), ("classifiers", none, "print the list of classifiers"),
    ("keywords", none, "print the list of keywords"),
    ("provides", none, "print the list of packages/modules provided"),
    ("requires", none, "print the list of packages/modules required"),
    ("obsoletes", none, "print the list of packages/modules made obsolete")]

/-- Splits a text into runs of blanks, runs of hyphens and the words between them. -/
def chunks (cs : List Char) : List String :=
  let kind := fun (c : Char) => if c == ' ' then 1 else if c == '-' then 2 else 0
  let rec go : Nat → List Char → List String
    | 0, _ => []
    | _, [] => []
    | fuel + 1, c :: rest =>
      let k := kind c
      let run := rest.takeWhile fun d => kind d == k
      String.ofList (c :: run) :: go fuel (rest.drop run.length)
  go (cs.length + 1) cs

/-- Fills lines of at most `width` characters from chunks: a line ends before the chunk that
does not fit (a trailing run of blanks dropped), a chunk longer than a line is cut, and a run
of blanks that would start a line is dropped. -/
def fillLines (width : Nat) : Nat → List String → List String
  | 0, _ => []
  | _, [] => []
  | fuel + 1, cs =>
    let rec take : Nat → List String → List String → Nat → List String × List String
      | 0, line, rest, _ => (line, rest)
      | _, line, [], _ => (line, [])
      | f + 1, line, c :: rest, len =>
        if len + c.length ≤ width then take f (line ++ [c]) rest (len + c.length)
        else
          let line := if (line.getLast?.map (·.startsWith " ")).getD false then line.dropLast else line
          (line, c :: rest)
    let (line, rest) := take (cs.length + 1) [] cs 0
    let (line, rest) := match line, rest with
      | [], c :: more => ([(c.take width).toString], (c.drop width).toString :: more)
      | _, _ => (line, rest)
    let rest := match rest with
      | c :: more => if c.startsWith " " then more else rest
      | [] => []
    String.join line :: fillLines width fuel rest

/-- The lines of help for an option table under a header: each option as `--name (-x)`
padded to the longest, then its description wrapped to fit 78 columns. -/
def optionHelp (header : String) (table : List (String × Option Char × String)) : List String :=
  let label := fun (e : String × Option Char × String) => match e.2.1 with
    | some c => e.1 ++ " (-" ++ c.toString ++ ")"
    | none => e.1
  let widest := table.foldl (fun m e => max m (label e).length) 0
  let textWidth := 78 - (widest + 6)
  let indent := String.ofList (List.replicate (widest + 6) ' ')
  header :: table.flatMap fun e =>
    let text := if e.2.2.length ≤ textWidth then [e.2.2] else fillLines textWidth (e.2.2.length + 1) (chunks e.2.2.toList)
    let l := label e
    let first := "  --" ++ l ++ String.ofList (List.replicate (widest - l.length) ' ') ++ "  " ++ text.headD ""
    first :: (text.drop 1).map (indent ++ ·)

/-- The help text of the build script. -/
def helpText : String :=
  let common := "Common commands: (see '--help-commands' for more)\n\n" ++
    "  setup.py build      will build the package underneath 'build/'\n" ++
    "  setup.py install    will install the package\n"
  let lines := optionHelp (common ++ "\nGlobal options:") globalHelp ++ [""] ++
    optionHelp "Information display options (just display information, ignore any commands)" displayHelp ++ [""]
  String.join (lines.map (· ++ "\n")) ++ usage ++ "\n"

/-- The standard commands of the build script with their descriptions. -/
def standardCommands : List (String × String) :=
  [("build", "build everything needed to install"),
    ("build_py", "\"build\" pure Python modules (copy to build directory)"),
    ("build_ext", "build C/C++ extensions (compile/link to build directory)"),
    ("build_clib", "build C/C++ libraries used by Python extensions"),
    ("build_scripts", "\"build\" scripts (copy and fixup #! line)"),
    ("clean", "clean up temporary files from 'build' command"),
    ("install", "install everything from build directory"),
    ("install_lib", "install all Python modules (extensions and pure Python)"),
    ("install_headers", "install C/C++ header files"),
    ("install_scripts", "install scripts (Python or otherwise)"),
    ("install_data", "install data files"),
    ("sdist", "create a source distribution (tarball, zip file, etc.)"),
    ("register", "register the distribution with the Python package index"),
    ("bdist", "create a built (binary) distribution"),
    ("bdist_dumb", "create a \"dumb\" built distribution"),
    ("bdist_rpm", "create an RPM distribution"),
    ("check", "perform some checks on the package"),
    ("upload", "upload binary package to PyPI")]

/-- The commands the packaging tools add, with their descriptions. -/
def extraCommands : List (String × String) :=
  [("alias", "define a shortcut to invoke one or more commands"),
    ("bdist_egg", "create an \"egg\" distribution"),
    ("bdist_wheel", "create a wheel distribution"),
    ("develop", "install package in 'development mode'"),
    ("dist_info", "DO NOT CALL DIRECTLY, INTERNAL ONLY: create .dist-info directory"),
    ("easy_install", "Find/get/install Python packages"),
    ("editable_wheel", "DO NOT CALL DIRECTLY, INTERNAL ONLY: create PEP 660 editable wheel"),
    ("egg_info", "create a distribution's .egg-info directory"),
    ("install_egg_info", "Install an .egg-info directory for the package"),
    ("rotate", "delete older distributions, keeping N newest files"),
    ("saveopts", "save supplied options to setup.cfg or other config file"),
    ("setopt", "set an option in setup.cfg or another config file"),
    ("test", "run unit tests after in-place build (deprecated)"),
    ("upload_docs", "Upload documentation to sites other than PyPi such as devpi")]

/-- The listing of all commands: each group under its title, names padded to the longest
name of both groups, then the usage text. -/
def commandListing : String :=
  let widest := (standardCommands ++ extraCommands).foldl (fun m c => max m c.1.length) 0
  let group := fun (title : String) (cs : List (String × String)) =>
    title ++ ":\n" ++ String.join (cs.map fun (n, d) =>
      "  " ++ n ++ String.ofList (List.replicate (widest - n.length) ' ') ++ "  " ++ d ++ "\n")
  group "Standard commands" standardCommands ++ "\n" ++ group "Extra commands" extraCommands ++
    "\n" ++ usage ++ "\n"

/-- Whether a text can name a command: a letter, then letters, digits and underscores,
possibly followed by one line feed. -/
def validCommandName (s : String) : Bool :=
  let cs := match s.toList.reverse with
    | '\n' :: r => r.reverse
    | _ => s.toList
  let ascii := fun (c : Char) => c.toNat < 128
  match cs with
  | c :: rest => ascii c && c.isAlpha && rest.all fun d => ascii d && (d.isAlphanum || d == '_')
  | [] => false

/-- The outcome of running the build script. -/
structure QueryResult where
  /-- The text the script stopped with, if it stopped. -/
  exit : Option String
  stdout : String
  fault : Option Fault
  deriving Inhabited

/-- The printed value of a display option; none for options that display nothing. -/
def display (m : Metadata) (opt : String) : Option (Outcome String) :=
  let line := fun (s : String) => some (.ok (s ++ "\n"))
  match opt with
  | "name" => line name
  | "version" => line m.version
  | "fullname" => line (name ++ "-" ++ m.version)
  | "author" | "contact" => line author
  | "author-email" | "contact-email" => line authorEmail
  | "maintainer" | "maintainer-email" | "url" => line "None"
  | "license" | "licence" => line license
  | "description" => line description
  | "long-description" => line m.longDescription
  | "platforms" => some (.error .notJoinable)
  | "classifiers" => line ("\n".intercalate classifiers)
  | "keywords" | "provides" | "requires" | "obsoletes" => line ""
  | _ => none

/-- Runs the build script with global options on a read-me and an initialization text. -/
def query (args : List String) (readme initText : Option String) : QueryResult :=
  let m := metadata readme initText
  match readOptions (args.length + 1) args with
  | .error msg => { exit := some (usage ++ "\nerror: " ++ msg), stdout := "", fault := none }
  | .ok (opts, commands) =>
    if opts.contains " " then { exit := none, stdout := "", fault := some (.missingKey " ") }
    else if opts.contains "help-commands" then
      { exit := none, stdout := commandListing, fault := none }
    else
      let shown := opts.filterMap (display m)
      if !shown.isEmpty then
        let (out, fault) := shown.foldl (fun (acc : String × Option Fault) r =>
          match acc.2, r with
          | some f, _ => (acc.1, some f)
          | none, .ok s => (acc.1 ++ s, none)
          | none, .error f => (acc.1, some f)) ("", none)
        { exit := none, stdout := out, fault }
      else match commands with
        | command :: _ =>
          if validCommandName command then
            { exit := none, stdout := "", fault := some (.badInput "commands are not run") }
          else { exit := some ("invalid command name '" ++ command ++ "'"), stdout := "", fault := none }
        | [] =>
          if opts.contains "help" then { exit := none, stdout := helpText, fault := none }
          else { exit := some (usage ++ "\nerror: no commands supplied"), stdout := "", fault := none }

end Package

end OnnxFusion
