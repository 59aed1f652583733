import OnnxFusion.Value.Basic
import OnnxFusion.Numeric.Shortest
import OnnxFusion.Text.Literal
/-!
# The text of a value

How a value reads inside a message: a text as itself; any other value as its literal form,
with `None`, `True` and `False`, shortest float digits, quoted texts, and lists and records in
brackets with `, ` between items. Arrays and tensor attributes, which no message built from
attributes or documents can hold, are written by their type name.
-/

set_option autoImplicit false

namespace OnnxFusion

namespace Value

mutual
/-- The literal form of a value. -/
def literal : Value → String
  | none => "None"
  | bool b => if b then "True" else "False"
  | int n => toString n
  | float x => Decimal.repr x
  | str s => Text.literal s
  | list items => "[" ++ literalItems items ++ "]"
  | dict entries => "\x7b" ++ literalEntries entries ++ "\x7d"
  | array _ => "<numpy.ndarray>"
  | tensorAttr _ => "<TensorProto>"

/-- The literal forms of list items, separated by `, `. -/
def literalItems : List Value → String
  | [] => ""
  | [v] => literal v
  | v :: rest => literal v ++ ", " ++ literalItems rest

/-- The literal forms of record entries, separated by `, `. -/
def literalEntries : List (String × Value) → String
  | [] => ""
  | [(k, v)] => Text.literal k ++ ": " ++ literal v
  | (k, v) :: rest => Text.literal k ++ ": " ++ literal v ++ ", " ++ literalEntries rest
end

/-- The text of a value in a message: a text is shown as itself. -/
def display : Value → String
  | str s => s
  | v => literal v

end Value

end OnnxFusion
