import OnnxFusion.Pattern.Match
import OnnxFusion.Value.Text
/-!
# Constraints on a single node

A constraint is either an operator type the node must have, or an attribute comparison.
An attribute the node does not have fails every comparison, whatever the comparator; a
comparator other than the texts `==`, `!=`, `>`, `<`, `>=`, `<=` (any value may be given)
is a fault when the attribute is present. Comparisons follow the order of dynamic values (`Value.compareWith`).
-/

set_option autoImplicit false

namespace OnnxFusion

open Dataflow

/-- A condition on one node. -/
inductive Constraint where
  | opType (op : Value)
  | attr (name : String) (value : Value) (comparator : Value)
  deriving Inhabited

namespace Constraint

/-- Whether a node satisfies the constraint. -/
def check (c : Constraint) (n : Node) : Outcome Bool :=
  match c with
  | .opType op => .ok (Value.equals (.str n.opType) op)
  | .attr name value comparator =>
    match n.attr? name with
    | none => .ok false
    | some a =>
      let is := fun (symbol : String) => Value.equals comparator (.str symbol)
      if is "==" then .ok (Value.equals a value)
      else if is "!=" then .ok (!Value.equals a value)
      else if is ">" then Value.compareWith .gt a value
      else if is "<" then Value.compareWith .lt a value
      else if is ">=" then Value.compareWith .ge a value
      else if is "<=" then Value.compareWith .le a value
      else .error (.unsupportedComparator comparator.display)

end Constraint

namespace Dataflow.Node

/-- Whether the node reads any of the given values; every value must be hashable, and the
first that is not is a fault. -/
def readsAny (n : Node) (vs : List Value) : Outcome Bool :=
  match vs.find? (fun v => !v.hashable) with
  | some v => .error (.unhashable v.typeName)
  | none => .ok (vs.any fun v => n.inputs.any fun i => Value.equals (.str i) v)

/-- The text a node is shown as, with its identity given. -/
def describe (n : Node) (ident : String) : String :=
  let names (xs : List String) := "[" ++ ", ".intercalate (xs.map Text.literal) ++ "]"
  "ONNXNode(id=" ++ ident ++ ", op=" ++ n.opType ++ ", inputs=" ++ names n.inputs ++
    ", outputs=" ++ names n.outputs ++ ")"

end Dataflow.Node

end OnnxFusion
