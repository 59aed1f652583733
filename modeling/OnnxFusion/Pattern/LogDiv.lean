import OnnxFusion.Pattern.Match
/-!
# The log-of-quotient pattern

Anchored at a `Log` with at least one input and exactly one output, whose first predecessor
is a `Div` reading no initializer. The match is `[Div, Log]` with the `Div`'s inputs and the
`Log`'s output; the fused form is `Log a - Log b`. A `Log` without any producer has no first
predecessor, which is a fault.
-/

set_option autoImplicit false

namespace OnnxFusion.Pattern

open Dataflow

/-- Recognises `Log (a / b)` anchored at the `Log`. -/
def logDiv (g : Graph) (log : Node) : Outcome (Option Match) := do
  if !log.isOp "Log" then return none
  if log.inputs.isEmpty || log.outputs.length != 1 then return none
  let div ← first (← g.predecessors log)
  if !div.isOp "Div" then return none
  if div.inputs.any g.isConstant then return none
  return some { pattern := "LogDivPattern", nodes := [div, log], inputs := div.inputs.map .str,
                outputs := log.outputs, attrs := [] }

end OnnxFusion.Pattern
