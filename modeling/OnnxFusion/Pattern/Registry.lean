import OnnxFusion.Pattern.LayerNorm
import OnnxFusion.Pattern.Attention
import OnnxFusion.Pattern.LogDiv
import OnnxFusion.Pattern.ConvBatchNorm
import OnnxFusion.Numeric.Shortest
import OnnxFusion.Order.Sort
/-!
# Patterns and their registry

A pattern has a name, a priority and a recogniser: one of the four built-in subgraph
recognisers, or a single-operator pattern that matches every node of one operator type as
a one-node match carrying the node's inputs, outputs and attributes.

The registry holds patterns in registration order. Registering a name that is present
replaces that entry in its place; a new name is appended. Matching tries patterns by
priority, highest first, and keeps registration order among equal priorities; the sort
consults only "lower than", so a NaN priority lands where that sequence of tests puts it.
-/

set_option autoImplicit false

namespace OnnxFusion

open Dataflow

/-- How a pattern recognises its subgraph. -/
inductive Recognizer where
  | convBatchNorm
  | layerNorm
  | attention
  | logDiv
  | singleOp (opType : String)
  deriving Inhabited

/-- A registered pattern. -/
structure Pattern where
  name : String
  priority : Value
  recognizer : Recognizer
  deriving Inhabited

namespace Pattern

/-- Runs a pattern at a node. -/
def run (p : Pattern) (g : Graph) (n : Node) : Outcome (Option Match) :=
  match p.recognizer with
  | .convBatchNorm => Pattern.convBatchNorm g n
  | .layerNorm => Pattern.layerNorm g n
  | .attention => Pattern.attention g n
  | .logDiv => Pattern.logDiv g n
  | .singleOp op =>
    if n.isOp op then
      .ok (some { pattern := p.name, nodes := [n], inputs := n.inputs.map .str,
                  outputs := n.outputs, attrs := n.attrs })
    else .ok none

/-- The text of a number the way the tool prints it. -/
def numberText : Value → String
  | .int n => toString n
  | .float x => Decimal.repr x
  | .bool b => if b then "True" else "False"
  | _ => "None"

/-- The text a pattern is shown as. -/
def describe (p : Pattern) : String :=
  "Pattern(name=" ++ p.name ++ ", priority=" ++ numberText p.priority ++ ", constraints=1)"

/-- The built-in patterns in registration order. -/
def builtins : List Pattern :=
  [⟨"ConvTransBNPattern", .int 10, .convBatchNorm⟩, ⟨"LayerNormPattern", .int 10, .layerNorm⟩,
   ⟨"CustomAttnPattern", .int 10, .attention⟩, ⟨"LogDivPattern", .int 10, .logDiv⟩]

/-- A user pattern matching single nodes of one operator type. -/
def single (name opType : String) (priority : Value) : Pattern := ⟨name, priority, .singleOp opType⟩

end Pattern

/-- Registered patterns in registration order. -/
abbrev Registry := List Pattern

namespace Registry

/-- The registry of the built-in patterns. -/
def initial : Registry := Pattern.builtins

/-- Registers a pattern: replaces the entry of its name in place, or appends it. -/
def register (r : Registry) (p : Pattern) : Registry :=
  if r.any (·.name == p.name) then r.map (fun q => if q.name == p.name then p else q) else r ++ [p]

/-- The pattern of a name. -/
def find? (r : Registry) (name : String) : Option Pattern := List.find? (·.name == name) r

/-- Whether `a` has a lower priority than `b`; a NaN is lower than nothing and nothing is
lower than it. -/
def lowerPriority (a b : Pattern) : Bool :=
  match a.priority.number?, b.priority.number? with
  | some x, some y => x.compare? y == some .lt
  | _, _ => false

/-- The patterns in the order matching tries them: priority descending, equal priorities in
registration order. -/
def ordered (r : Registry) : List Pattern := Order.sortDescendingBy lowerPriority r

/-- Names a registered pattern may not take: the members of the pattern interface that do
not start with an underscore. A pattern of such a name is refused with a fault. -/
def reservedNames : List String :=
  ["REGISTER_PATTERNS", "add_constraint", "match", "name", "priority", "register",
   "register_pattern"]

end Registry

end OnnxFusion
