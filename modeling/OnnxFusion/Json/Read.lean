import OnnxFusion.Json.Basic
import OnnxFusion.Numeric.Binary
/-!
# Reading JSON text

A recursive-descent reader over the characters of the text. Every step consumes at least
one character, so the fuel handed in (the length of the text plus one) is never the reason
a reading stops. Numbers: `-? digits (. digits)? ([eE] [+-]? digits)?`; a literal with a
fraction or an exponent becomes the nearest double, any other an integer.
-/

set_option autoImplicit false

namespace OnnxFusion.Json

/-- Skips blanks. -/
def skipWs : List Char → List Char
  | c :: rest => if c == ' ' || c == '\n' || c == '\t' || c == '\r' then skipWs rest else c :: rest
  | [] => []

/-- Reads a run of decimal digits. -/
def digits : List Char → List Char × List Char
  | c :: rest =>
    if c.isDigit then
      let (ds, r) := digits rest
      (c :: ds, r)
    else ([], c :: rest)
  | [] => ([], [])

/-- The value of a list of decimal digits. -/
def digitValue (ds : List Char) : Nat :=
  ds.foldl (fun acc c => acc * 10 + (c.toNat - '0'.toNat)) 0

/-- The double nearest to `± mant · 10^exp`. -/
def decimalToFloat (neg : Bool) (mant : Nat) (exp : Int) : Float :=
  let mag : Float :=
    if mant == 0 then 0.0
    else
      let size : Int := (Nat.toDigits 10 mant).length
      if exp + size > 400 then Binary.infinity
      else if exp + size < -400 then 0.0
      else if exp ≥ 0 then Float.ofScientific mant false exp.toNat
      else Float.ofScientific mant true (-exp).toNat
  if neg then -mag else mag

/-- Reads a number literal. -/
def readNumber (cs : List Char) : Except String (Json × List Char) :=
  let (neg, cs) := match cs with
    | '-' :: r => (true, r)
    | r => (false, r)
  let (intPart, cs) := digits cs
  if intPart.isEmpty then .error "bad number"
  else
    let (frac, cs, hasFrac) := match cs with
      | '.' :: r =>
        let (f, r') := digits r
        (f, r', true)
      | r => ([], r, false)
    if hasFrac && frac.isEmpty then .error "bad number"
    else
      let (expo, cs, hasExp) : Int × List Char × Bool := match cs with
        | c :: r =>
          if c == 'e' || c == 'E' then
            let (sgn, r) : Int × List Char := match r with
              | '-' :: r' => (-1, r')
              | '+' :: r' => (1, r')
              | r' => (1, r')
            let (ed, r) := digits r
            if ed.isEmpty then (0, [], false) else (sgn * digitValue ed, r, true)
          else (0, c :: r, false)
        | [] => (0, [], false)
      if hasFrac || hasExp then
        let mant := digitValue (intPart ++ frac)
        .ok (.float (decimalToFloat neg mant (expo - frac.length)), cs)
      else
        let v : Int := digitValue intPart
        .ok (.int (if neg then -v else v), cs)

/-- The value of one hexadecimal digit. -/
def hexDigit (c : Char) : Option Nat :=
  if c.isDigit then some (c.toNat - '0'.toNat)
  else if 'a' ≤ c && c ≤ 'f' then some (c.toNat - 'a'.toNat + 10)
  else if 'A' ≤ c && c ≤ 'F' then some (c.toNat - 'A'.toNat + 10)
  else none

/-- Reads four hexadecimal digits. -/
def hex4 : List Char → Option (Nat × List Char)
  | a :: b :: c :: d :: rest => do
    let va ← hexDigit a
    let vb ← hexDigit b
    let vc ← hexDigit c
    let vd ← hexDigit d
    pure (((va * 16 + vb) * 16 + vc) * 16 + vd, rest)
  | _ => none

/-- Reads the body of a string after its opening quote. -/
def readString : Nat → List Char → List Char → Except String (String × List Char)
  | 0, _, _ => .error "string too long"
  | _ + 1, [], _ => .error "unterminated string"
  | fuel + 1, c :: rest, acc =>
    if c == '"' then .ok (String.ofList acc.reverse, rest)
    else if c == '\\' then
      match rest with
      | 'n' :: r => readString fuel r ('\n' :: acc)
      | 't' :: r => readString fuel r ('\t' :: acc)
      | 'r' :: r => readString fuel r ('\r' :: acc)
      | 'b' :: r => readString fuel r ('\x08' :: acc)
      | 'f' :: r => readString fuel r ('\x0c' :: acc)
      | '/' :: r => readString fuel r ('/' :: acc)
      | '\\' :: r => readString fuel r ('\\' :: acc)
      | '"' :: r => readString fuel r ('"' :: acc)
      | 'u' :: r =>
        match hex4 r with
        | some (hi, r') =>
          if 0xD800 ≤ hi && hi < 0xDC00 then
            match r' with
            | '\\' :: 'u' :: r'' =>
              match hex4 r'' with
              | some (lo, r3) =>
                if 0xDC00 ≤ lo && lo < 0xE000 then
                  readString fuel r3 (Char.ofNat (0x10000 + (hi - 0xD800) * 0x400 + (lo - 0xDC00)) :: acc)
                else readString fuel r' ('�' :: acc)
              | none => .error "bad escape"
            | _ => readString fuel r' ('�' :: acc)
          else if 0xDC00 ≤ hi && hi < 0xE000 then readString fuel r' ('�' :: acc)
          else readString fuel r' (Char.ofNat hi :: acc)
        | none => .error "bad escape"
      | _ => .error "bad escape"
    else readString fuel rest (c :: acc)

mutual
/-- Reads one value. -/
def readValue : Nat → List Char → Except String (Json × List Char)
  | 0, _ => .error "input too deep"
  | fuel + 1, cs =>
    match skipWs cs with
    | '{' :: rest => readMembers fuel (skipWs rest) [] true
    | '[' :: rest => readItems fuel (skipWs rest) [] true
    | '"' :: rest => do
      let (s, r) ← readString (rest.length + 1) rest []
      pure (.str s, r)
    | 't' :: 'r' :: 'u' :: 'e' :: r => .ok (.bool true, r)
    | 'f' :: 'a' :: 'l' :: 's' :: 'e' :: r => .ok (.bool false, r)
    | 'n' :: 'u' :: 'l' :: 'l' :: r => .ok (.null, r)
    | 'N' :: 'a' :: 'N' :: r => .ok (.float Binary.nan, r)
    | 'I' :: 'n' :: 'f' :: 'i' :: 'n' :: 'i' :: 't' :: 'y' :: r => .ok (.float Binary.infinity, r)
    | '-' :: 'I' :: 'n' :: 'f' :: 'i' :: 'n' :: 'i' :: 't' :: 'y' :: r =>
      .ok (.float (-Binary.infinity), r)
    | c :: r => if c == '-' || c.isDigit then readNumber (c :: r) else .error "unexpected character"
    | [] => .error "unexpected end"

/-- Reads array items after `[`; `first` is true before the first item. -/
def readItems : Nat → List Char → List Json → Bool → Except String (Json × List Char)
  | 0, _, _, _ => .error "input too deep"
  | fuel + 1, cs, acc, first =>
    match cs with
    | ']' :: rest => if first then .ok (.arr acc.reverse, rest) else .error "trailing comma"
    | _ => do
      let (v, rest) ← readValue fuel cs
      match skipWs rest with
      | ',' :: r => readItems fuel (skipWs r) (v :: acc) false
      | ']' :: r => .ok (.arr (v :: acc).reverse, r)
      | _ => .error "expected , or ]"

/-- Reads object members after `{`. -/
def readMembers : Nat → List Char → List (String × Json) → Bool → Except String (Json × List Char)
  | 0, _, _, _ => .error "input too deep"
  | fuel + 1, cs, acc, first =>
    match cs with
    | '}' :: rest => if first then .ok (.obj acc.reverse, rest) else .error "trailing comma"
    | '"' :: rest => do
      let (k, r) ← readString (rest.length + 1) rest []
      match skipWs r with
      | ':' :: r' => do
        let (v, r'') ← readValue fuel r'
        match skipWs r'' with
        | ',' :: r3 => readMembers fuel (skipWs r3) ((k, v) :: acc) false
        | '}' :: r3 => .ok (.obj ((k, v) :: acc).reverse, r3)
        | _ => .error "expected a comma or the end of an object"
      | _ => .error "expected :"
    | _ => .error "expected key"
end

/-- Reads a whole text as one JSON value. -/
def parse (text : String) : Except String Json := do
  let cs := text.toList
  let (v, rest) ← readValue (cs.length + 1) cs
  if (skipWs rest).isEmpty then pure v else .error "trailing text"

end OnnxFusion.Json
