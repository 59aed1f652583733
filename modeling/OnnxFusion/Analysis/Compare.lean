import OnnxFusion.Inference.Inputs
import OnnxFusion.Analysis.Measure
import OnnxFusion.Text.Csv
import OnnxFusion.Text.Table
import OnnxFusion.Order.Bitonic
/-!
# Comparing a quantized model with its float model

`analyze` feeds the arrays of a data directory to the quantized model and then to the float
model (each run prepares its own output directory and may keep its outputs), and compares
the outputs name by name, in the float model's order. Both models must have the same output
names.

Each comparison row holds the two shapes, the mean squared error and the cosine similarity
of the float output against the quantized one. A measure that fails is NaN, and the row's
note says why: `shape_mismatch_truncated` when the element counts differ, else `mse_error`
or `cos_error` for the first measure that failed.

The rows may be written as a comma-separated table and shown as a pipe table (errors as
`d.dddddde±XX`, similarities with six decimals). The rows of the chosen output names with a
numeric error are then ranked by decreasing error (equal errors as the sorting network of
`Order.argsortByNetwork` leaves them, see `rankByError`) and the first
`k` kept (a negative `k` drops the last `-k`). When some are kept they are shown with their
numeric error, written to the top-k table, and their names returned.

In a written table a float column is written in the shortest digits of its element type and
NaN as an empty field. The error column is of doubles; the similarity column is of the widest
element type among its values when all of them have one, and of doubles when any is a plain
number.
-/

set_option autoImplicit false

namespace OnnxFusion

/-- One compared output. -/
structure Comparison where
  name : String
  floatDims : List Nat
  quantDims : List Nat
  mse : Float
  cosine : Option DType × Float
  note : String
  deriving Inhabited

/-- A request to compare a quantized model with its float model. -/
structure AnalyzeRequest where
  floatModel : String
  quantModel : String
  dataDir : String
  floatDir : String
  quantDir : String
  dump : Bool
  csvPath : String
  topkPath : String
  topk : Int
  display : Bool
  inserted : Value
  deriving Inhabited

namespace Compare

/-- A shape written as a tuple: `(2,)`, `(2, 3)`, `()`. -/
def tupleText (dims : List Nat) : String :=
  match dims with
  | [d] => "(" ++ toString d ++ ",)"
  | _ => "(" ++ ", ".intercalate (dims.map toString) ++ ")"

/-- A note unless one is already set. -/
def noteOr (note fallback : String) : String := if note.isEmpty then fallback else note

/-- Compares a float output with a quantized one. -/
def compareOutput (name : String) (f q : Tensor) : Comparison :=
  let note := if Tensor.count f.dims != Tensor.count q.dims then "shape_mismatch_truncated" else ""
  let (mse, note) := match Measure.meanSquaredError f q with
    | .ok m => (m, note)
    | .error _ => (Binary.nan, noteOr note "mse_error")
  let (cosine, note) := match Measure.cosineReading f q with
    | .ok c => (c, note)
    | .error _ => ((none, Binary.nan), noteOr note "cos_error")
  { name, floatDims := f.dims, quantDims := q.dims, mse, cosine, note }

/-- The format of the similarity column: when every value has an element type, the widest of
them; otherwise doubles. -/
def cosineFormat (rows : List Comparison) : Binary.Format :=
  match rows.mapM (·.cosine.1) with
  | some (t :: ts) =>
    let widest := ts.foldl (fun a b => if b.floatWidth > a.floatWidth then b else a) t
    widest.format?.getD Binary.binary64
  | _ => Binary.binary64

/-- A float field of a written table. -/
def floatField (fmt : Binary.Format) (x : Float) : String := if x.isNaN then "" else Decimal.reprIn fmt x

/-- The fields of a row in a written table. -/
def csvFields (fmt : Binary.Format) (r : Comparison) : List String :=
  [r.name, tupleText r.floatDims, tupleText r.quantDims, floatField Binary.binary64 r.mse,
    floatField fmt r.cosine.2, r.note]

/-- The column names of the comparison table. -/
def headers : List String := ["op_name", "float_shape", "quant_shape", "mse", "cosine", "note"]

/-- An error as shown: six decimals in scientific form, `nan` for NaN. -/
def errorText (x : Float) : String := if x.isNaN then "nan" else Decimal.scientific x 6

/-- A similarity as shown: six decimals, `nan` for NaN. -/
def similarityText (x : Float) : String := if x.isNaN then "nan" else Decimal.fixed x 6

/-- A row of the shown comparison table. -/
def shownRow (r : Comparison) : List Table.Cell :=
  [.text r.name, .shown (tupleText r.floatDims), .shown (tupleText r.quantDims),
    .text (errorText r.mse), .text (similarityText r.cosine.2), .text r.note]

/-- A row of the shown top-k table. -/
def topRow (r : Comparison) : List Table.Cell :=
  [.text r.name, .shown (tupleText r.floatDims), .shown (tupleText r.quantDims),
    .text (errorText r.mse), .real r.cosine.2, .text r.note, .real r.mse]

/-- The names a membership test accepts from a collection. -/
def chosenNames (v : Value) : Outcome (List String) :=
  match v with
  | .list items => .ok (items.filterMap fun i => match i with
    | .str s => some s
    | _ => none)
  | .dict entries => .ok (entries.map (·.1))
  | _ => .error (.notListLike v.typeName)

/-- The first `k` items; a negative `k` drops the last `-k`. -/
def headOf {α : Type} (k : Int) (xs : List α) : List α :=
  if k ≥ 0 then xs.take k.toNat else xs.take (xs.length - k.natAbs)

/-- Rows ranked by decreasing error: the rows are reversed, their positions sorted by
increasing error (`Order.argsortByNetwork`), and that order reversed again. -/
def rankByError (rows : List Comparison) : List Comparison :=
  let rev := rows.reverse
  ((Order.argsortByNetwork (rev.map (·.mse))).filterMap fun i => rev[i]?).reverse

/-- Writes a table as a data frame does: its directory must exist. -/
def writeTable (path text : String) : HostM Unit := do
  let parent := (PathParts.written path).parent
  unless (← get).disk.isDirPath parent do throw (.missingParentDirectory parent.text)
  Host.onDisk (·.write path (.text text))

/-- The comparison rows of the float model's outputs, in its order, each against the quantized
output of the same name. -/
def rowsOf (quant float : List (String × Tensor)) : List Comparison :=
  float.map fun (k, f) => compareOutput k f (((quant.find? (·.1 == k)).map (·.2)).getD f)

/-- The rows of the chosen names with a numeric error, ranked by decreasing error, the first
`k` of them kept. -/
def topRows (k : Int) (chosen : List String) (rows : List Comparison) : List Comparison :=
  headOf k (rankByError (rows.filter fun c => chosen.contains c.name && !c.mse.isNaN))

/-- Writes the comparison table when a path is given, and shows it when asked. -/
def saveRows (r : AnalyzeRequest) (fmt : Binary.Format) (rows : List Comparison) : HostM Unit := do
  unless r.csvPath.isEmpty do
    writeTable r.csvPath (Csv.table headers (rows.map (csvFields fmt)))
    Host.print ("\nSaved comparison CSV to: " ++ r.csvPath)
  if r.display then Host.print (Table.render headers (rows.map shownRow))

/-- Keeps the rows with the largest errors among the chosen ones, shows and writes them, and
returns their names. -/
def saveTop (r : AnalyzeRequest) (fmt : Binary.Format) (rows : List Comparison) :
    HostM (List String) := do
  let chosen ← Host.lift (chosenNames r.inserted)
  let top := topRows r.topk chosen rows
  if top.isEmpty then
    Host.print "\nNo numeric MSE values available to compute top-20."
    return []
  Host.print ("\nTop " ++ toString top.length ++ " tensors with largest MSE:")
  Host.print (Table.render (headers ++ ["mse_numeric"]) (top.map topRow))
  writeTable r.topkPath (Csv.table (headers ++ ["mse_numeric"])
    (top.map fun c => csvFields fmt c ++ [floatField Binary.binary64 c.mse]))
  Host.print ("\nSaved top-k largest MSE CSV to: " ++ r.topkPath)
  pure (top.map (·.name))

/-- Compares the outputs of the two models, shows and writes the tables, and returns the names
of the outputs with the largest errors among the chosen ones. -/
def report (r : AnalyzeRequest) (quant float : List (String × Tensor)) : HostM (List String) := do
  let names := fun (t : List (String × Tensor)) => t.map (·.1)
  unless (names quant).all (names float).contains && (names float).all (names quant).contains do
    throw .outputsDiffer
  let rows := rowsOf quant float
  let fmt := cosineFormat rows
  saveRows r fmt rows
  saveTop r fmt rows

end Compare

/-- Compares a quantized model with its float model and returns the names of the outputs
with the largest errors among the chosen ones. -/
def analyze (r : AnalyzeRequest) : HostM (List String) := do
  let data ← loadInputs r.dataDir
  let run := fun (model dir : String) => inferOutputs
    { modelPath := model, outputDir := dir, inputData := some data, inputShape := none,
      inputDtype := some "float32", seed := .int 42, dump := r.dump }
  let quant ← run r.quantModel r.quantDir
  let float ← run r.floatModel r.floatDir
  Compare.report r quant float

end OnnxFusion
