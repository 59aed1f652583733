import OnnxFusion.Text.Printable
/-!
# String literals in the tool's messages

Messages quote a name the way a string literal is written back: in single quotes, or in
double quotes when the text holds a single quote and no double quote. A backslash, the
chosen quote and the characters that do not print are escaped.
-/

set_option autoImplicit false

namespace OnnxFusion.Text

/-- Two lowercase hexadecimal digits. -/
def hex2 (n : Nat) : String :=
  let d (k : Nat) : Char := (Nat.toDigits 16 ((n / Nat.pow 16 k) % 16)).headD '0'
  String.ofList [d 1, d 0]

/-- One character inside a literal delimited by `q`. -/
def escapeIn (q : Char) (c : Char) : String :=
  if c == '\\' then "\\\\"
  else if c == q then "\\" ++ c.toString
  else if c == '\n' then "\\n"
  else if c == '\r' then "\\r"
  else if c == '\t' then "\\t"
  else if printable c then c.toString
  else if c.toNat < 0x100 then "\\x" ++ hex2 c.toNat
  else if c.toNat < 0x10000 then "\\u" ++ hex2 (c.toNat / 256) ++ hex2 (c.toNat % 256)
  else "\\U00" ++ hex2 (c.toNat / 65536) ++ hex2 (c.toNat / 256 % 256) ++ hex2 (c.toNat % 256)

/-- The literal of a string. -/
def literal (s : String) : String :=
  let q := if s.contains '\'' && !s.contains '"' then '"' else '\''
  q.toString ++ String.join (s.toList.map (escapeIn q)) ++ q.toString

end OnnxFusion.Text
