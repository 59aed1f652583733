import OnnxFusion.Netlist.Basic
import OnnxFusion.Value.Basic
/-!
# Freezing graph inputs into constants

Each given input name becomes a constant `constant_<name>` holding the given values: every
node input of that name is relinked to the constant, and graph inputs of the given names
are dropped. Then graph outputs whose names are listed as unused are removed, each at its
first occurrence. The re-sort, constant folding and cleanup that close the edit leave this
netlist as it is and are no steps here.
-/

set_option autoImplicit false

namespace OnnxFusion

namespace Netlist

/-- Relinks every node input named `name` to tensor `c`. -/
def relinkInputs (g : Netlist) (name : String) (c : Nat) : Netlist :=
  (List.range g.nodes.size).foldl (fun acc n =>
    (List.range (acc.node n).inputs.length).foldl (fun acc' i =>
      match (acc'.node n).inputs[i]? with
      | some t =>
        if (acc'.tensor t).name == name then
          match acc'.setInput n i c with
          | .ok g' => g'
          | .error _ => acc'
        else acc'
      | none => acc') acc) g

/-- Replaces the named inputs by constants and drops unused outputs. -/
def freezeInputs (g : Netlist) (constants : List (String × Tensor)) (unused : Value) :
    Outcome Netlist := do
  let g := constants.foldl (fun acc (name, t) =>
    let (acc, c) := acc.addTensor ("constant_" ++ name) (.constant (.array t))
    acc.relinkInputs name c) g
  let keptInputs := g.inputs.filter fun t => !constants.any (·.1 == (g.tensor t).name)
  let g := { g with inputs := keptInputs }
  g.outputs.foldlM (fun acc t => do
    if ← unused.holdsText (acc.tensor t).name then pure { acc with outputs := acc.outputs.erase t }
    else pure acc) g

end Netlist

end OnnxFusion
