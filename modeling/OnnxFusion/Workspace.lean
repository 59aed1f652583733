import OnnxFusion.Tensor.Basic
import OnnxFusion.Fault
/-!
# The working directory

The tools read and write files in a working directory: text files, single saved arrays and
archives of named arrays. A place is a list of components, an absolute one with a leading
`/` component; the working directory itself and `/` always exist, and `..` of either is
itself.

A text path is looked up the way the system does it (`Workspace.lookup`): component by
component from the working directory or `/`, each step taken inside a directory that exists,
`.` staying and `..` going up. So `zz/../data` names `data` only when `zz` is a directory.
A path ending in `/` must name a directory. A lookup stops early when a directory on the way
is missing or is a file.

Failures carry the path as the caller wrote it, the way the system reports them:
* making directories with their parents works on the path with empty and `.` components
  dropped: each missing directory is made after its parent, even one that a later `..`
  leaves; it fails where a file is in the way, and making one that is a file fails;
* removing a tree fails when the path is a file; a tree named through a last `.` or `..`
  component loses everything inside it, and then removing the directory itself fails;
* listing fails when the path is missing or is a file;
* writing a file fails when its directory is missing or when the path is a directory;
* reading fails when the path is missing or is a directory.
-/

set_option autoImplicit false

namespace OnnxFusion

/-- What a file holds. -/
inductive FileData
  | text (s : String)
  | array (t : Tensor)
  | archive (members : List (String × Tensor))
  deriving Inhabited

namespace FileData

/-- A text as reading it in text mode gives it back: each carriage return, alone or before a
newline, ends a line as one newline. -/
def textRead (s : String) : String :=
  let rec go : List Char → List Char
    | '\r' :: '\n' :: rest => '\n' :: go rest
    | '\r' :: rest => '\n' :: go rest
    | c :: rest => c :: go rest
    | [] => []
  String.ofList (go s.toList)

end FileData

/-- A path as its components. -/
abbrev PathParts := List String

namespace PathParts

/-- The place a text path names when every directory on the way exists: empty and `.`
components dropped and `..` taking one component back. -/
def parse (p : String) : PathParts :=
  let parts := p.splitOn "/"
  let start : PathParts := if p.startsWith "/" then ["/"] else []
  (parts.foldl (fun (acc : PathParts) c =>
    if c.isEmpty || c == "." then acc
    else if c == ".." then (if acc.length ≤ 1 && acc.head? == some "/" then acc else acc.dropLast)
    else acc ++ [c]) start)

/-- The components of a text path with empty and `.` components dropped; `..` is kept. -/
def written (p : String) : PathParts :=
  let start : PathParts := if p.startsWith "/" then ["/"] else []
  start ++ (p.splitOn "/").filter fun c => !c.isEmpty && c != "."

/-- The parent of a written path: the path without its last component; the working directory
and `/` are their own parents. -/
def parent (p : PathParts) : PathParts :=
  if p == ["/"] then p else p.dropLast

/-- The text of a path: components joined by `/`, the working directory as `.`. -/
def text (p : PathParts) : String :=
  match p with
  | [] => "."
  | "/" :: rest => "/" ++ "/".intercalate rest
  | _ => "/".intercalate p

/-- Whether a path lies inside a directory (strictly). -/
def under (p dir : PathParts) : Bool := dir.isPrefixOf p && p.length > dir.length

end PathParts

/-- Joins a directory and a name the way paths are joined: an absolute name stands alone,
otherwise a `/` goes between unless the directory is empty or ends in one. -/
def joinPath (dir name : String) : String :=
  if name.startsWith "/" || dir.isEmpty then name
  else if dir.endsWith "/" then dir ++ name
  else dir ++ "/" ++ name

/-- The files and directories of the working directory and of any absolute places written. -/
structure Workspace where
  files : List (PathParts × FileData)
  dirs : List PathParts
  deriving Inhabited

namespace Workspace

/-- The empty working directory. -/
def empty : Workspace := { files := [], dirs := [] }

/-- Whether a path is a directory. -/
def isDir (w : Workspace) (p : PathParts) : Bool := p == [] || p == ["/"] || w.dirs.contains p

/-- The file at a path. -/
def file? (w : Workspace) (p : PathParts) : Option FileData := (w.files.find? (·.1 == p)).map (·.2)

/-- Whether a path is a file. -/
def isFile (w : Workspace) (p : PathParts) : Bool := (w.file? p).isSome

/-- Whether a path exists. -/
def holds (w : Workspace) (p : PathParts) : Bool := w.isDir p || w.isFile p

/-- Adds a directory and its ancestors, none of which is a file. -/
def addDirs (w : Workspace) (p : PathParts) : Workspace :=
  (List.range p.length).foldl (fun acc k =>
    let d := p.take (k + 1)
    if acc.isDir d then acc else { acc with dirs := acc.dirs ++ [d] }) w

/-- Stores a file, with its directories, replacing one at the same path. -/
def putFile (w : Workspace) (p : PathParts) (d : FileData) : Workspace :=
  let w := w.addDirs p.dropLast
  match w.files.findIdx? (·.1 == p) with
  | some i => { w with files := w.files.set i (p, d) }
  | none => { w with files := w.files ++ [(p, d)] }

/-- Where looking a path up leads. -/
inductive Lookup
  /-- Every directory on the way exists; the path names this place, which may be missing. -/
  | found (p : PathParts)
  /-- A directory on the way is missing. -/
  | missing
  /-- A directory on the way is a file. -/
  | notDir

/-- Takes the steps of a path from a directory: each step is taken inside the place reached
so far, which must be a directory. -/
def walk (w : Workspace) (here : PathParts) : List String → Lookup
  | [] => .found here
  | c :: rest =>
    if !w.isDir here then (if w.isFile here then .notDir else .missing)
    else if c == "." then walk w here rest
    else if c == ".." then walk w (PathParts.parent here) rest
    else walk w (here ++ [c]) rest

/-- Looks up components from the working directory, or from `/` when the first is `/`. -/
def lookupParts (w : Workspace) (p : PathParts) : Lookup :=
  match p with
  | "/" :: rest => w.walk ["/"] rest
  | _ => w.walk [] p

/-- Looks up a text path; a path ending in `/` must name a directory. -/
def lookup (w : Workspace) (path : String) : Lookup :=
  let steps := (path.splitOn "/").filter (!·.isEmpty)
  let start : PathParts := if path.startsWith "/" then ["/"] else []
  match w.walk start steps with
  | .found p => if path.endsWith "/" && w.isFile p then .notDir else .found p
  | r => r

/-- Whether components, looked up, name a directory. -/
def isDirPath (w : Workspace) (p : PathParts) : Bool :=
  match w.lookupParts p with
  | .found q => w.isDir q
  | _ => false

/-- A working directory holding the given files. -/
def ofFiles (entries : List (String × FileData)) : Workspace :=
  entries.foldl (fun w (p, d) => w.putFile (PathParts.parse p) d) empty

/-- Whether a path exists, for a text path (the empty text names nothing). -/
def exists? (w : Workspace) (path : String) : Bool :=
  !path.isEmpty && match w.lookup path with
    | .found p => w.holds p
    | _ => false

/-- Makes one directory, written as components, whose parent exists; an existing directory is
left as it is. -/
def makeDir (w : Workspace) (p : PathParts) : Outcome Workspace :=
  match w.lookupParts p with
  | .missing => .error (.fileNotFound p.text)
  | .notDir => .error (.notADirectory p.text)
  | .found q =>
    if w.isDir q then .ok w
    else if w.isFile q then .error (.fileExists p.text)
    else .ok { w with dirs := w.dirs ++ [q] }

/-- Makes a directory, written as components, after making its missing parents; `fuel`
bounds the parents taken and is the number of components. -/
def makeParents (w : Workspace) : Nat → PathParts → Outcome Workspace
  | 0, p => w.makeDir p
  | fuel + 1, p =>
    match w.lookupParts p with
    | .missing =>
      if PathParts.parent p == p then .error (.fileNotFound p.text)
      else do
        let w ← w.makeParents fuel (PathParts.parent p)
        w.makeDir p
    | _ => w.makeDir p

/-- Makes a directory and its missing parents; an existing directory is left as it is. -/
def makeDirs (w : Workspace) (path : String) : Outcome Workspace :=
  let p := PathParts.written path
  w.makeParents p.length p

/-- The last component a path text names, ignoring trailing slashes. -/
def lastComponent (path : String) : String :=
  ((path.splitOn "/").filter (!·.isEmpty)).getLastD ""

/-- Removes a directory and everything in it; gives the directory after the removal and the
fault that stopped it. A directory named through `.` or `..` is emptied, but cannot itself be
removed. -/
def removeTree (w : Workspace) (path : String) : Workspace × Option Fault :=
  match w.lookup path with
  | .missing => (w, some (.fileNotFound path))
  | .notDir => (w, some (.notADirectory path))
  | .found p =>
    if !w.isDir p then (w, some (if w.isFile p then .notADirectory path else .fileNotFound path))
    else
      let emptied : Workspace := { files := w.files.filter (fun (q, _) => !q.under p),
                                   dirs := w.dirs.filter (fun q => !q.under p) }
      match emptied.lookup path with
      | .missing => (emptied, some (.fileNotFound path))
      | .notDir => (emptied, some (.notADirectory path))
      | .found _ =>
        match lastComponent path with
        | "." => (emptied, some (.invalidArgument path))
        | ".." => (emptied, some (.directoryNotEmpty path))
        | _ => ({ emptied with dirs := emptied.dirs.filter (· != p) }, none)

/-- The names directly inside a directory, in order of creation. -/
def listDir (w : Workspace) (path : String) : Outcome (List String) :=
  if path.isEmpty then .error (.fileNotFound path)
  else match w.lookup path with
    | .missing => .error (.fileNotFound path)
    | .notDir => .error (.notADirectory path)
    | .found p =>
      if w.isFile p then .error (.notADirectory path)
      else if !w.isDir p then .error (.fileNotFound path)
      else
        let child (q : PathParts) : Option String :=
          if q.length == p.length + 1 && p.isPrefixOf q then q.getLast? else none
        .ok (w.dirs.filterMap child ++ w.files.filterMap (fun (q, _) => child q))

/-- Writes a file. -/
def write (w : Workspace) (path : String) (d : FileData) : Outcome Workspace :=
  if path.isEmpty then .error (.fileNotFound path)
  else match w.lookup path with
    | .missing => .error (.fileNotFound path)
    | .notDir => .error (.notADirectory path)
    | .found p =>
      if w.isDir p || path.endsWith "/" then .error (.isADirectory path)
      else .ok (w.putFile p d)

/-- Reads a file. -/
def read (w : Workspace) (path : String) : Outcome FileData :=
  if path.isEmpty then .error (.fileNotFound path)
  else match w.lookup path with
    | .missing => .error (.fileNotFound path)
    | .notDir => .error (.notADirectory path)
    | .found p =>
      match w.file? p with
      | some d => .ok d
      | none => .error (if w.isDir p then .isADirectory path else .fileNotFound path)

/-- The files inside the working directory (not at absolute places), by their text paths. -/
def localFiles (w : Workspace) : List (String × FileData) :=
  w.files.filterMap fun (p, d) => if p.head? == some "/" then none else some (p.text, d)

end Workspace

end OnnxFusion
