import OnnxFusion.Host
import OnnxFusion.Random.Normal
import OnnxFusion.Value.Coerce
/-!
# Running a model and keeping its outputs

`inferOutputs` prepares an empty output directory (removing an old one), opens a session on
the model, seeds the normal source and runs the session once on a feed: the given input
arrays, or else one array of standard normal samples per input, drawn in order from the
seeded source and converted to the requested element type (`float64` when none is named).
Without given shapes, the shapes are the model's input shapes with every named or unknown
dimension taken as 1. The outputs are named by the model's outputs; when asked, each is
written to `<dir>/<name>.npy`.

A seed is an integer in `[0, 2^32)` (a boolean counts as 0 or 1). Any other value is made
into an array (see `Value/Coerce`), which must be non-empty, of integers or booleans,
one-dimensional and within `[0, 2^32)`; it is mixed into the state as a key. Nothing as a
seed leaves the state unspecified, and it is taken here as the seed 0.

A shape for random inputs is iterated: the items of a list, the characters of a text, the
keys of a record. Each item must be an integer (not a boolean) that fits a signed 64-bit
size, and then none may be negative.
-/

set_option autoImplicit false

namespace OnnxFusion

/-- The element type a type name denotes, with the common short names. -/
def DType.ofTypeName? (s : String) : Option DType :=
  match DType.ofName? s with
  | some t => some t
  | none =>
    match s with
    | "float" | "double" | "f8" | "<f8" | "float_" => some .float64
    | "single" | "f4" | "<f4" => some .float32
    | "half" | "f2" | "<f2" => some .float16
    | "int" | "i8" | "<i8" | "long" | "int_" => some .int64
    | "i4" | "<i4" | "intc" => some .int32
    | "i2" | "<i2" | "short" => some .int16
    | "i1" | "byte" => some .int8
    | "u1" | "ubyte" => some .uint8
    | "?" | "b1" | "bool_" => some .bool
    | _ => none

namespace Normal

/-- The largest seed word. -/
def maxSeed : Int := 4294967295

/-- A seed word from an integer in range. -/
def seedWord (n : Int) : Outcome UInt32 :=
  if n < 0 || n > maxSeed then .error .seedOutOfRange else .ok (UInt32.ofNat n.toNat)

/-- A seed array item as an integer: an integer, or a boolean as 0 or 1. -/
def keyItem (v : Value) : Int :=
  match v with
  | .int n => n
  | .bool b => if b then 1 else 0
  | _ => 0

/-- The source seeded by a value. -/
def ofSeed (v : Value) : Outcome Normal :=
  match v with
  | .none => .ok (ofTwister (Twister.seed 0))
  | .bool b => .ok (ofTwister (Twister.seed (if b then 1 else 0)))
  | .int n => do pure (ofTwister (Twister.seed (← seedWord n)))
  | _ => do
    let (dims, ragged) := v.nestedShape
    if ragged then throw (.ragged dims.length dims)
    let items := v.leaves
    if items.isEmpty then throw .emptySeed
    let kind := ElementKind.ofScalars items
    if !kind.castsSafelyToInt64 then throw (.unsafeSeed kind.name dims.isEmpty)
    if dims.length != 1 then throw .seedNotFlat
    let words ← items.mapM fun i => seedWord (keyItem i)
    pure (ofTwister (Twister.ofKey words))

end Normal

/-- A request to run a model and keep its outputs. -/
structure InferRequest where
  modelPath : String
  outputDir : String
  inputData : Option (List (String × Tensor))
  inputShape : Option (List (String × Value))
  /-- The element type of random inputs by name; none asks for the default, `float64`. -/
  inputDtype : Option String
  seed : Value
  dump : Bool
  deriving Inhabited

namespace Inference

/-- The dimensions of a shape value: the items of a list, the characters of a text, the keys
of a record. -/
def dimsOf (v : Value) : Outcome (List Int) :=
  match v with
  | .list items => items.mapM Value.dimension
  | .str s => s.toList.mapM fun c => (Value.str c.toString).dimension
  | .dict entries => entries.mapM fun e => (Value.str e.1).dimension
  | _ => .error (.starArgsNotIterable "numpy.random.mtrand.RandomState.randn()" v.typeName)

/-- The element type a requested name denotes; no name is `float64`. -/
def requestedType (dtype : Option String) : Outcome DType :=
  match dtype with
  | none => .ok .float64
  | some name =>
    match DType.ofTypeName? name with
    | some t => .ok t
    | none => .error (.unknownDtype name)

/-- An array of standard normal samples of a shape, in a requested element type, and the
source after it. A shape without dimensions gives a plain number, which has no conversion. -/
def randomArray (s : Normal) (dtype : Option String) (shape : Value) : Outcome (Tensor × Normal) := do
  let dims ← dimsOf shape
  if dims.isEmpty then throw (.noAttribute "float" "astype")
  let sizes ← Tensor.allocation .float64 dims
  let (xs, s) := s.take (Tensor.count sizes)
  let t ← requestedType dtype
  pure ({ dtype := t, dims := sizes, elems := xs.map fun x => Scalar.cast t (.real x) }, s)

/-- Random arrays for named shapes, drawn in order from one source. -/
def randomInputs (s : Normal) (dtype : Option String) : List (String × Value) → Outcome (List (String × Tensor))
  | [] => .ok []
  | (name, shape) :: rest => do
    let (t, s) ← randomArray s dtype shape
    pure ((name, t) :: (← randomInputs s dtype rest))

/-- The shape a model input gives random data: named and unknown dimensions taken as 1. -/
def specShape (p : TensorSpec) : Value :=
  match p.shape with
  | some ds => .list (ds.map fun d => match d with
    | .size n => .int n
    | _ => .int 1)
  | none => .none

/-- Assigns named values in order, the way a table is filled: a repeated name keeps its first
place and takes the last value. -/
def assignAll {α : Type} (table : List (String × α)) (entries : List (String × α)) : List (String × α) :=
  entries.foldl (fun acc (k, v) =>
    match acc.findIdx? (·.1 == k) with
    | some i => acc.set i (k, v)
    | none => acc ++ [(k, v)]) table

end Inference

/-- Runs a model on given or random inputs and returns its outputs by name. -/
def inferOutputs (r : InferRequest) : HostM (List (String × Tensor)) := do
  if (← get).disk.exists? r.outputDir then Host.removeTree r.outputDir
  Host.onDisk (·.makeDirs r.outputDir)
  let s ← Host.openSession r.modelPath
  let normal ← Host.lift (Normal.ofSeed r.seed)
  let feed ← match r.inputData with
    | some d => pure d
    | none =>
      let shapes := r.inputShape.getD (s.model.inputSpecs.map fun p => (p.name, Inference.specShape p))
      Host.lift (Inference.randomInputs normal r.inputDtype shapes)
  let names := s.model.outputSpecs.map (·.name)
  let outs ← Host.run s names feed
  let table := Inference.assignAll [] (names.zip outs)
  if r.dump then
    for (name, t) in table do
      Host.onDisk (·.write (joinPath r.outputDir (name ++ ".npy")) (.array t))
  pure table

end OnnxFusion
