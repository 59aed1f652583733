import OnnxFusion.Inference.Run
import OnnxFusion.Zip.Directory
/-!
# Input arrays from a data directory

`loadInputs dir` reads every entry of a directory as an archive of named arrays and gathers
the arrays by name; a later array of a name replaces an earlier one. An entry that is a
single saved array has no named items. A text entry is told by its first bytes: none at
all is no data, the signature of a zip archive's first record or of its end record makes
it an archive, and anything else is not an array file at all.

An archive read from a text is taken apart by its directory (`Zip.members`). Its members
are named by their entry names, less a final `.npy`, and read in directory order; an
archive without entries holds no arrays. The first member read is found by its name
(`firstRead`), and its local header is checked; member contents are not read here.
-/

set_option autoImplicit false

namespace OnnxFusion

namespace Inference

/-- Whether bytes start with the signature of a zip archive's first local header or of its
end-of-directory record. -/
def zipSignature (bytes : List Nat) : Bool :=
  [0x50, 0x4b, 3, 4].isPrefixOf bytes || [0x50, 0x4b, 5, 6].isPrefixOf bytes

/-- The array name of a member: its entry name less a final `.npy`. -/
def memberKey (name : String) : String :=
  if name.endsWith ".npy" then String.ofList (name.toList.take (name.length - 4)) else name

/-- The entry read for the first member: the member named by the first entry's key is the
entry of that very name when there is one, and else the one of the key with `.npy`; of
several entries of a name, the last counts. -/
def firstRead (entries : List Zip.Entry) : Option Zip.Entry :=
  match entries with
  | [] => none
  | e :: _ =>
    let key := memberKey e.name
    let names := entries.map (·.name)
    let wanted := if names.contains key then key else key ++ ".npy"
    (entries.filter (·.name == wanted)).getLast?

/-- The named arrays of a data file that holds a text. -/
def textArrays (s : String) : Outcome (List (String × Tensor)) := do
  let bytes := Text.utf8Bytes s
  if bytes.isEmpty then throw .noDataLeft
  unless zipSignature bytes do throw .pickledData
  let entries ← Zip.members bytes.toArray
  match firstRead entries with
  | none => pure []
  | some e =>
    e.checkHeader bytes.toArray
    throw (.archiveMemberUnread e.name)

end Inference

/-- The named arrays of the archives in a directory. -/
def loadInputs (dir : String) : HostM (List (String × Tensor)) := do
  let names ← Host.lift ((← get).disk.listDir dir)
  let mut data : List (String × Tensor) := []
  for n in names do
    match ← Host.lift ((← get).disk.read (joinPath dir n)) with
    | .archive members => data := Inference.assignAll data members
    | .array _ => throw (.noAttribute "numpy.ndarray" "items")
    | .text s => data := Inference.assignAll data (← Host.lift (Inference.textArrays s))
  pure data

end OnnxFusion
