import OnnxFusion.Fusion.LayerNorm
import OnnxFusion.Fusion.Attention
import OnnxFusion.Fusion.LogDiv
import OnnxFusion.Fusion.ConvBatchNorm
import OnnxFusion.Pattern.Match
/-!
# Carrying out replacements

Each built-in pattern name has its fusion; a replacement for any other name is declined and
leaves the netlist as it is. A fault stops a fusion where it stands: the executor's netlist
then holds the links the fusion had already changed. The executor holds the netlist being edited and whether any
fusion has run: only then is there a fused model to export. Running a list of replacements
goes on past a declined one and reports whether all were carried out; a fault stops it.
The cleanup and re-sort that follow each fusion leave this netlist as it is, so a fusion's
edit is the whole of its step.
-/

set_option autoImplicit false

namespace OnnxFusion

/-- The replacement a match asks for. -/
def Match.toReplacement (m : Match) : Replacement :=
  { pattern := m.pattern, nodes := m.nodes, inputs := m.inputs, outputs := m.outputs.map .str,
    attrs := m.attrs }

namespace Replacement

/-- The fusion of a replacement as an edit: `true` once the fusion of its pattern's name has
run, `false` (and nothing edited) when no fusion has that name. -/
def edit (r : Replacement) : Edit Bool :=
  match r.pattern with
  | "ConvTransBNPattern" => do Fusion.convBatchNorm r; pure true
  | "LayerNormPattern" => do Fusion.layerNorm r; pure true
  | "CustomAttnPattern" => do Fusion.attention r; pure true
  | "LogDivPattern" => do Fusion.logDiv r; pure true
  | _ => pure false

end Replacement

/-- The netlist being edited (if any) and whether a fusion has run. -/
structure Executor where
  graph : Option Netlist := none
  fused : Bool := false
  deriving Inhabited

namespace Executor

/-- Carries out one replacement on the executor's netlist: whether it was carried out, or the
fault that stopped it, with the executor as it then stands. The netlist is edited in place,
so after a fault it keeps the links the fusion had already changed. Without a netlist
nothing runs. -/
def run (e : Executor) (r : Replacement) : Except Fault Bool × Executor :=
  match e.graph with
  | none => (.ok false, e)
  | some g =>
    match r.edit.exec g with
    | (.ok true, g') => (.ok true, { graph := some g', fused := true })
    | (.ok false, _) => (.ok false, e)
    | (.error f, g') => (.error f, { e with graph := some g' })

/-- Carries out one replacement; reports whether it was. -/
def execute (e : Executor) (r : Replacement) : Outcome (Executor × Bool) :=
  match e.run r with
  | (.ok ok, e') => .ok (e', ok)
  | (.error f, _) => .error f

/-- Carries out replacements in order; reports whether every one was. -/
def executeAll (e : Executor) : List Replacement → Outcome (Executor × Bool)
  | [] => .ok (e, true)
  | r :: rest => do
    let (e', ok) ← e.execute r
    let (e'', okRest) ← executeAll e' rest
    pure (e'', ok && okRest)

/-- The fused netlist, present only once a fusion has run. -/
def model? (e : Executor) : Option Netlist := if e.fused then e.graph else none

end Executor

end OnnxFusion
