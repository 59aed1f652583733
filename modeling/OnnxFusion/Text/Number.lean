import OnnxFusion.Json.Read
import OnnxFusion.Text.Blank
import OnnxFusion.Text.Digit
/-!
# Reading numbers the way a text-to-number conversion does

A text is first put in ASCII form: ASCII characters stay, any other space becomes a blank,
a decimal digit of any script becomes its ASCII digit, and anything else becomes `?`, which
no number contains. Then:

* `readInt? s`: blanks around, an optional sign, decimal digits with single underscores
  between digits;
* `readFloat? s`: blanks around, an optional sign, then `inf`, `infinity` or `nan` in any
  case, or digits with an optional point and fraction (at least one digit in all) and an
  optional exponent, underscores allowed between digits. The value is the nearest double.

Only the six ASCII blanks (space, tab, line feed, carriage return, vertical tab, form feed)
count as blanks among the ASCII characters.
-/

set_option autoImplicit false

namespace OnnxFusion.Text

/-- The ASCII form of a text for reading a number. -/
def asciiForm (s : String) : String :=
  String.ofList (s.toList.map fun c =>
    if c.toNat < 127 then c
    else if isWideSpace c then ' '
    else match decimalValue? c with
      | some d => Char.ofNat (48 + d)
      | none => '?')

/-- The text without blanks at either end. -/
def strip (s : String) : List Char :=
  ((s.toList.dropWhile isAsciiBlank).reverse.dropWhile isAsciiBlank).reverse

/-- After a digit: further digits, each possibly after one underscore, and what follows. -/
def digitTail : List Char → List Char × List Char
  | c :: rest =>
    if c.isDigit then
      let (ds, r) := digitTail rest
      (c :: ds, r)
    else if c == '_' then
      match rest with
      | d :: more =>
        if d.isDigit then
          let (ds, r) := digitTail more
          (d :: ds, r)
        else ([], c :: d :: more)
      | [] => ([], [c])
    else ([], c :: rest)
  | [] => ([], [])

/-- Digits with single underscores between digits, and what follows them. -/
def digitRun : List Char → List Char × List Char
  | c :: rest =>
    if c.isDigit then
      let (ds, r) := digitTail rest
      (c :: ds, r)
    else ([], c :: rest)
  | [] => ([], [])

/-- A sign and the rest. -/
def signOf : List Char → Bool × List Char
  | '-' :: r => (true, r)
  | '+' :: r => (false, r)
  | r => (false, r)

/-- An integer text. -/
def readInt? (s : String) : Option Int :=
  let (neg, rest) := signOf (strip (asciiForm s))
  let (ds, r) := digitRun rest
  if ds.isEmpty || !r.isEmpty then none
  else
    let v : Int := Json.digitValue ds
    some (if neg then -v else v)

/-- A float text. -/
def readFloat? (s : String) : Option Float :=
  let (neg, rest) := signOf (strip (asciiForm s))
  let word := (String.ofList rest).toLower
  if word == "inf" || word == "infinity" then some (if neg then -Binary.infinity else Binary.infinity)
  else if word == "nan" then some Binary.nan
  else
    let (ip, r) := digitRun rest
    let (fp, r) := match r with
      | '.' :: r' => digitRun r'
      | _ => ([], r)
    if ip.isEmpty && fp.isEmpty then none
    else
      let (ex, r, ok) : Int × List Char × Bool := match r with
        | c :: r' =>
          if c == 'e' || c == 'E' then
            let (eneg, r'') := signOf r'
            let (ed, r3) := digitRun r''
            if ed.isEmpty then (0, r, false)
            else ((if eneg then -1 else 1) * (Json.digitValue ed : Int), r3, true)
          else (0, r, true)
        | [] => (0, [], true)
      if !ok || !r.isEmpty then none
      else some (Json.decimalToFloat neg (Json.digitValue (ip ++ fp)) (ex - fp.length))

end OnnxFusion.Text
