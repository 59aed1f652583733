import OnnxFusion.Tensor.Basic
import OnnxFusion.Fault
import OnnxFusion.Text.Infix
/-!
# Dynamic values

Attribute values, constraint operands, configuration fields and the operands of a match
are dynamic: a value may be nothing, a boolean, an integer, a float, a text, a list, a
record, an array or a tensor attribute. This module gives them their equality and order:

* numbers compare by their exact values (`1 == 1.0`, `true == 1`; a NaN equals nothing);
* texts compare by code points, lists lexicographically (the first unequal items decide,
  else the lengths);
* any other pair has equality only by kind and no order, and ordering them is a fault
  naming both type names.
-/

set_option autoImplicit false

namespace OnnxFusion

/-- A dynamic value. -/
inductive Value where
  | none
  | bool (b : Bool)
  | int (n : Int)
  | float (x : Float)
  | str (s : String)
  | list (items : List Value)
  | dict (entries : List (String × Value))
  | array (t : Tensor)
  | tensorAttr (t : Tensor)
  deriving Inhabited

namespace Value

/-- The type name a message uses for the value. -/
def typeName : Value → String
  | none => "NoneType"
  | bool _ => "bool"
  | int _ => "int"
  | float _ => "float"
  | str _ => "str"
  | list _ => "list"
  | dict _ => "dict"
  | array _ => "numpy.ndarray"
  | tensorAttr _ => "TensorProto"

/-- Whether a value is falsy: nothing, false, zero, an empty text, list or record. -/
def isFalsy : Value → Bool
  | none => true
  | bool b => !b
  | int n => n == 0
  | float x => x == 0.0
  | str s => s.isEmpty
  | list xs => xs.isEmpty
  | dict es => es.isEmpty
  | _ => false

/-- Numbers in one exact form for comparison: an integer or a double. -/
inductive Number where
  | int (n : Int)
  | float (x : Float)

/-- The number a value stands for, if it is one. -/
def number? : Value → Option Number
  | bool b => some (.int (if b then 1 else 0))
  | int n => some (.int n)
  | float x => some (.float x)
  | _ => Option.none

/-- Exact comparison of two numbers; `none` when a NaN is involved. -/
def Number.compare? : Number → Number → Option Ordering
  | .int a, .int b => some (compare a b)
  | .float x, .int b => Binary.compareInt x b
  | .int a, .float y => (Binary.compareInt y a).map Ordering.swap
  | .float x, .float y =>
    if Binary.isNaN x || Binary.isNaN y then Option.none
    else if x < y then some .lt else if x == y then some .eq else some .gt

mutual
/-- Equality of dynamic values. -/
def equals : Value → Value → Bool
  | none, none => true
  | str a, str b => a == b
  | list xs, list ys => listEquals xs ys
  | dict xs, dict ys => xs.length == ys.length && dictEquals xs ys ys
  | a, b =>
    match a.number?, b.number? with
    | some x, some y => x.compare? y == some .eq
    | _, _ => false

/-- Item-wise equality of two lists. -/
def listEquals : List Value → List Value → Bool
  | [], [] => true
  | x :: xs, y :: ys => equals x y && listEquals xs ys
  | _, _ => false

/-- Every entry of the first record has an equal entry in `all`. -/
def dictEquals : List (String × Value) → List (String × Value) → List (String × Value) → Bool
  | [], _, _ => true
  | (k, v) :: rest, ys, all =>
    match lookupIn all k with
    | some w => equals v w && dictEquals rest ys all
    | Option.none => false

/-- The value of a key in a record. -/
def lookupIn : List (String × Value) → String → Option Value
  | [], _ => Option.none
  | (k, v) :: rest, key => if k == key then some v else lookupIn rest key
end

/-- The comparisons a constraint may ask for. -/
inductive Order where
  | lt | gt | le | ge
  deriving DecidableEq

/-- The symbol of a comparison. -/
def Order.symbol : Order → String
  | .lt => "<"
  | .gt => ">"
  | .le => "<="
  | .ge => ">="

/-- Whether an ordering satisfies a comparison. -/
def Order.holds : Order → Ordering → Bool
  | .lt, o => o == .lt
  | .gt, o => o == .gt
  | .le, o => o != .gt
  | .ge, o => o != .lt

mutual
/-- Compares two values, failing when they have no order. -/
def compareWith (op : Order) : Value → Value → Outcome Bool
  | str a, str b => .ok (op.holds (compare a b))
  | list xs, list ys => compareLists op xs ys
  | a, b =>
    match a.number?, b.number? with
    | some x, some y =>
      match x.compare? y with
      | some o => .ok (op.holds o)
      | Option.none => .ok false
    | _, _ => .error (.notOrdered op.symbol a.typeName b.typeName)

/-- Lexicographic comparison: the first pair of unequal items decides, else the lengths. -/
def compareLists (op : Order) : List Value → List Value → Outcome Bool
  | x :: xs, y :: ys => if equals x y then compareLists op xs ys else compareWith op x y
  | [], [] => .ok (op.holds .eq)
  | [], _ :: _ => .ok (op.holds .lt)
  | _ :: _, [] => .ok (op.holds .gt)
end

/-- Whether a text is in a value: a part of a text, an item of a list, a key of a record.
An array holds no texts; the other kinds cannot be searched. -/
def holdsText (container : Value) (item : String) : Outcome Bool :=
  match container with
  | str s => .ok (Text.occursIn item s)
  | list vs => .ok (vs.any fun v => equals v (str item))
  | dict es => .ok (es.any (·.1 == item))
  | array _ => .ok false
  | v => .error (.notIterable v.typeName)

/-- The items of a list, the one-character texts of a text, or the keys of a record, as
iterating over them gives; numbers, booleans and nothing cannot be iterated, and arrays and
tensor attributes are not iterated here. -/
def items : Value → Outcome (List Value)
  | list vs => .ok vs
  | str s => .ok (s.toList.map fun c => str c.toString)
  | dict es => .ok (es.map fun (k, _) => str k)
  | v => .error (.cannotIterate v.typeName)

/-- Whether a value can be put into a set. -/
def hashable : Value → Bool
  | list _ | dict _ | array _ => false
  | _ => true

end Value

end OnnxFusion
