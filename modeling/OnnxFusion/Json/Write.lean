import OnnxFusion.Json.Basic
import OnnxFusion.Numeric.Shortest
/-!
# Writing JSON text

Compact text: no blanks, members in the order held. A double is written in the tool's
float style (`Decimal.repr`), which always carries a point or an exponent, so it reads back
as the same double and as a float. The values a JSON number cannot hold are written as
the strings `"NaN"`, `"Infinity"` and `"-Infinity"`.
-/

set_option autoImplicit false

namespace OnnxFusion.Json

/-- Four hexadecimal digits of a code unit. -/
def hexUnit (n : Nat) : String :=
  let d (k : Nat) : Char := (Nat.toDigits 16 ((n / Nat.pow 16 k) % 16)).headD '0'
  String.ofList [d 3, d 2, d 1, d 0]

/-- A character inside a quoted string. -/
def escapeChar (c : Char) : String :=
  if c == '"' then "\\\""
  else if c == '\\' then "\\\\"
  else if c == '\n' then "\\n"
  else if c == '\r' then "\\r"
  else if c == '\t' then "\\t"
  else if c.toNat < 0x20 then "\\u" ++ hexUnit c.toNat
  else c.toString

/-- A quoted string. -/
def quote (s : String) : String :=
  "\"" ++ String.join (s.toList.map escapeChar) ++ "\""

/-- The text of a double as a JSON value. -/
def floatText (x : Float) : String :=
  match Binary.kind x with
  | .nan => "\"NaN\""
  | .infinite neg => if neg then "\"-Infinity\"" else "\"Infinity\""
  | .finite _ => Decimal.repr x

/-- The text of an integer. -/
def intText (n : Int) : String :=
  if n < 0 then "-" ++ Decimal.digitsOf n.natAbs else Decimal.digitsOf n.natAbs

mutual
/-- Compact JSON text of a value. -/
def render : Json → String
  | .null => "null"
  | .bool b => if b then "true" else "false"
  | .int n => intText n
  | .float x => floatText x
  | .str s => quote s
  | .arr xs => "[" ++ renderItems xs ++ "]"
  | .obj ms => "\x7b" ++ renderMembers ms ++ "\x7d"

/-- Items separated by commas. -/
def renderItems : List Json → String
  | [] => ""
  | [x] => render x
  | x :: rest => render x ++ "," ++ renderItems rest

/-- Members separated by commas. -/
def renderMembers : List (String × Json) → String
  | [] => ""
  | [(k, v)] => quote k ++ ":" ++ render v
  | (k, v) :: rest => quote k ++ ":" ++ render v ++ "," ++ renderMembers rest
end

end OnnxFusion.Json
