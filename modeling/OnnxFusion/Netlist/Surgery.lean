import OnnxFusion.Inference.Session
/-!
# Cutting a netlist and splicing nodes into it

Two edits that take a netlist apart by tensor names, as found in its name table:

* `keepOnlyInput keep`: every graph input whose name is not `keep` is taken off the input list
  (each removal takes the first occurrence of the tensor named like it); then `exposeOnly name`
  turns the tensor of that name into a float32 variable of its own shape and makes it the
  only graph output.
* `spliceIdentity name`: the tensor's first consumer is unlinked from it (first occurrences on
  both sides), an `Identity` node `<name>_Identity` is appended reading the tensor and writing a
  new variable `<name>_identity_out` of the tensor's element type and shape, and that variable
  becomes the first input of the unlinked consumer.

A name that names no tensor is a missing key; a tensor with no consumer has no first one.
The cleanup after either edit leaves this netlist as it is.
-/

set_option autoImplicit false

namespace OnnxFusion

namespace Netlist

/-- The tensor of a name, or a missing key. -/
def tensorNamed (g : Netlist) (name : String) : Outcome Nat :=
  match g.find? name with
  | some t => .ok t
  | none => .error (.missingKey name)

/-- Removes the graph inputs not named `keep`, one occurrence at a time. -/
def keepOnlyInput (g : Netlist) (keep : String) : Outcome Netlist :=
  g.inputs.foldlM (fun acc t =>
    let name := (g.tensor t).name
    if name == keep then .ok acc
    else do
      let u ← g.tensorNamed name
      pure { acc with inputs := acc.inputs.erase u }) g

/-- The element type and shape a tensor object has. -/
def typeOf (g : Netlist) (t : Nat) : Option String × Option (List Dim) :=
  let p := g.spec t
  (p.dtype, p.shape)

/-- Makes the named tensor a float32 variable of its own shape and the only graph output. -/
def exposeOnly (g : Netlist) (name : String) : Outcome Netlist := do
  let t ← g.tensorNamed name
  let g := g.toVariable t (some "float32") (g.typeOf t).2
  pure { g with outputs := [t] }

/-- Puts an identity node between the named tensor and its first consumer. -/
def spliceIdentity (g : Netlist) (name : String) : Outcome Netlist := do
  let t ← g.tensorNamed name
  let consumer ← match (g.tensor t).consumers with
    | n :: _ => pure n
    | [] => throw .indexOutOfRange
  let g := g.dropLink .consumers t consumer
  let (dtype, shape) := g.typeOf t
  let (g, out) := g.addTensor (name ++ "_identity_out") (.variable dtype shape)
  let (g, _) := g.addNode "Identity" (name ++ "_Identity") [] [t] [out]
  pure (g.insertInput consumer 0 out)

end Netlist

end OnnxFusion
