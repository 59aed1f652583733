import OnnxFusion.Numeric.Shortest
/-!
# Decimal text with a fixed number of digits

Three ways of writing a double with a chosen precision, each rounding the exact binary value
once, half to even:

* `fixed x p`: `p` digits after the point (`0.125` with 2 places is `0.12`);
* `scientific x p`: one digit, the point, `p` digits and an exponent of at least two digits
  (`1.250000e-01`);
* `general x p`: `p` significant digits, written positionally when the decimal exponent `E`
  of the rounded value has `-4 ≤ E < p` and in scientific form otherwise, with trailing
  zeros (and a trailing point) removed (`0.125`, `1e-20`, `1.23457e+08`);
* `generalKept x p`: the same digits with trailing zeros and the point kept (`4.00`, `512.`).

`byteSize n` writes a number of bytes in binary units: `bytes`, `KiB`, … `EiB`, the unit
chosen from the bit length of `n` (moving up when the amount rounds to 1024), with three
significant digits, or all the integer digits of an amount of a thousand or more.

Non-finite values are `nan`, `inf` and `-inf`; a negative zero keeps its sign.
-/

set_option autoImplicit false

namespace OnnxFusion.Decimal

/-- `m · 2^e · 10^k` rounded to a natural, half to even. -/
def roundScaled (m : Nat) (e : Int) (k : Int) : Nat :=
  -- the value is num / den exactly
  let num : Nat :=
    m * (if e ≥ 0 then Nat.pow 2 e.toNat else 1) * (if k ≥ 0 then Nat.pow 10 k.toNat else 1)
  let den : Nat :=
    (if e < 0 then Nat.pow 2 (-e).toNat else 1) * (if k < 0 then Nat.pow 10 (-k).toNat else 1)
  let q := num / den
  let r := num % den
  if 2 * r > den then q + 1 else if 2 * r < den then q else if q % 2 == 0 then q else q + 1

/-- `s` padded on the left with zeros to at least `n` characters. -/
def zeroPad (n : Nat) (s : String) : String :=
  String.ofList (List.replicate (n - s.length) '0') ++ s

/-- Digits `q` holding `p` decimals, written with a point. -/
def withPoint (q : Nat) (p : Nat) : String :=
  let ds := zeroPad (p + 1) (digitsOf q)
  if p == 0 then ds
  else (ds.take (ds.length - p)).toString ++ "." ++ (ds.drop (ds.length - p)).toString

/-- A decimal exponent written with a sign and at least two digits. -/
def exponentText (ex : Int) : String :=
  "e" ++ (if ex < 0 then "-" else "+") ++ zeroPad 2 (digitsOf ex.natAbs)

/-- The significant digits of `m · 2^e` (`m > 0`) rounded to `n ≥ 1` digits, with the decimal
exponent of the first digit. -/
def significant (m : Nat) (e : Int) (n : Nat) : Nat × Int :=
  let iv := Interval.ofIn Binary.binary64 m e
  let top := decimalExponent iv m e
  let q := roundScaled m e ((n : Int) - 1 - top)
  if q ≥ Nat.pow 10 n then (roundScaled m e ((n : Int) - 2 - top), top + 1) else (q, top)

/-- Text for the non-finite values, or the sign and parts of a finite one. -/
def split (x : Float) : Sum String (String × Nat × Int) :=
  match Binary.kind x with
  | .nan => .inl "nan"
  | .infinite neg => .inl (if neg then "-inf" else "inf")
  | .finite p => .inr (if p.neg then "-" else "", p.mant, p.exp)

/-- `x` with `p` digits after the point. -/
def fixed (x : Float) (p : Nat) : String :=
  match split x with
  | .inl s => s
  | .inr (sign, m, e) => sign ++ withPoint (roundScaled m e p) p

/-- `x` in scientific form with `p` digits after the point. -/
def scientific (x : Float) (p : Nat) : String :=
  match split x with
  | .inl s => s
  | .inr (sign, m, e) =>
    if m == 0 then sign ++ withPoint 0 p ++ exponentText 0
    else
      let (q, ex) := significant m e (p + 1)
      sign ++ withPoint q p ++ exponentText ex

/-- Removes trailing zeros after a point, and the point if nothing follows it. -/
def trimZeros (s : String) : String :=
  if s.toList.contains '.' then
    let cs := (s.toList.reverse.dropWhile (· == '0')).reverse
    String.ofList (if cs.getLast? == some '.' then cs.dropLast else cs)
  else s

/-- `x` with `p ≥ 1` significant digits in the shorter of positional and scientific form. -/
def general (x : Float) (p : Nat) : String :=
  let p := max p 1
  match split x with
  | .inl s => s
  | .inr (sign, m, e) =>
    if m == 0 then sign ++ "0"
    else
      let (q, ex) := significant m e p
      if -4 ≤ ex && ex < p then
        let places : Nat := ((p : Int) - 1 - ex).toNat
        sign ++ trimZeros (withPoint (roundScaled m e places) places)
      else sign ++ trimZeros (withPoint q (p - 1)) ++ exponentText ex

/-- `x` with `p ≥ 1` significant digits like `general`, keeping trailing zeros and the point. -/
def generalKept (x : Float) (p : Nat) : String :=
  let p := max p 1
  let point (places : Nat) : String := if places == 0 then "." else ""
  match split x with
  | .inl s => s
  | .inr (sign, m, e) =>
    if m == 0 then sign ++ withPoint 0 (p - 1) ++ point (p - 1)
    else
      let (q, ex) := significant m e p
      if -4 ≤ ex && ex < p then
        let places : Nat := ((p : Int) - 1 - ex).toNat
        sign ++ withPoint (roundScaled m e places) places ++ point places
      else sign ++ withPoint q (p - 1) ++ point (p - 1) ++ exponentText ex

/-- A non-negative double rounded to a natural, half to even. -/
def roundNat (x : Float) : Nat :=
  match split x with
  | .inr (_, m, e) => roundScaled m e 0
  | .inl _ => 0

/-- A number of bytes in binary units. -/
def byteSize (n : Nat) : String :=
  let units := ["bytes", "KiB", "MiB", "GiB", "TiB", "PiB", "EiB"]
  let unit := (max (Binary.bitLength n - 1) 1) / 10
  let amount := Float.scaleB (Binary.binary64.ofInt n) (-((10 * unit : Nat) : Int))
  let (unit, amount) := if roundNat amount == 1024 then (unit + 1, amount / 1024.0) else (unit, amount)
  let (unit, amount) :=
    if unit ≥ units.length then
      (units.length - 1, Float.scaleB amount ((10 * (unit - (units.length - 1)) : Nat) : Int))
    else (unit, amount)
  let name := units.getD unit "EiB"
  if unit == 0 then fixed amount 0 ++ " " ++ name
  else if roundNat amount < 1000 then generalKept amount 3 ++ " " ++ name
  else fixed amount 0 ++ ". " ++ name

end OnnxFusion.Decimal
