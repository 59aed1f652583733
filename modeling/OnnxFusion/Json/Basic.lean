/-!
# JSON documents

The tool exchanges models, tensors and reports as JSON. A number keeps the distinction the
readers of these documents make: a literal without a fraction or exponent is an integer
of any size, every other literal is a double. Objects keep their members in the order
written; a member looked up by key is the last one of that key, as a reader that builds a
dictionary would see it.
-/

set_option autoImplicit false

namespace OnnxFusion

/-- A JSON value. -/
inductive Json where
  | null
  | bool (b : Bool)
  | int (n : Int)
  | float (x : Float)
  | str (s : String)
  | arr (items : List Json)
  | obj (members : List (String × Json))
  deriving Inhabited

namespace Json

/-- The value of the last member named `key`, if any. -/
def get? (j : Json) (key : String) : Option Json :=
  match j with
  | .obj members => (members.reverse.find? (·.1 == key)).map (·.2)
  | _ => none

/-- Whether the object has a member named `key`. -/
def has (j : Json) (key : String) : Bool := (j.get? key).isSome

/-- The items of an array. -/
def items? : Json → Option (List Json)
  | .arr xs => some xs
  | _ => none

/-- The text of a string. -/
def str? : Json → Option String
  | .str s => some s
  | _ => none

/-- The members of an object with the later of two equal keys kept, in first-seen order. -/
def members? : Json → Option (List (String × Json))
  | .obj ms =>
    some (ms.foldl (fun acc (k, v) =>
      if acc.any (·.1 == k) then acc.map (fun (k', v') => if k' == k then (k', v) else (k', v'))
      else acc ++ [(k, v)]) [])
  | _ => none

/-- Whether the value is `null`. -/
def isNull : Json → Bool
  | .null => true
  | _ => false

end Json

end OnnxFusion
