import OnnxFusion.Numeric.Binary
/-!
# Shortest decimal text of a binary float

`shortestIn fmt m e` returns the decimal `d · 10^k` with the fewest digits that reads back
to the float `m · 2^e` of format `fmt`, and the nearest such decimal when several have that
many digits. Reading back means lying in the rounding interval of the float: halfway to
each neighbour, the ends included exactly when the significand is even (ties go to the even
significand). All arithmetic is exact on naturals. `shortest` is the case of doubles.

`Decimal.repr` then lays the digits out the way the tool's host language writes a float:
positional between `1e-4` and `1e16`, otherwise `d.ddde±XX`, always with a point or an
exponent, so that the text reads back as a float and not as an integer.
-/

set_option autoImplicit false

namespace OnnxFusion.Decimal

/-- `a · 10^k` compared with `y / 2^d`, all exact. -/
def cmpScaled (a : Nat) (k : Int) (y : Nat) (d : Nat) : Ordering :=
  if k ≥ 0 then compare (a * Nat.pow 10 k.toNat * Nat.pow 2 d) y
  else compare (a * Nat.pow 2 d) (y * Nat.pow 10 (-k).toNat)

/-- The rounding interval of `m · 2^e`, scaled by `2^d`: low end, value, high end. -/
structure Interval where
  d : Nat
  low : Nat
  mid : Nat
  high : Nat
  closed : Bool

/-- The parts of `m · 2^e` (`m > 0`, a value of the format) with the significand the
format uses: below `2^precision`, exponent at least the smallest step. -/
def canonical (fmt : Binary.Format) (m : Nat) (e : Int) : Nat × Int :=
  let e' : Int := max fmt.minStep (e + Binary.bitLength m - fmt.precision)
  if e' ≥ e then (m / Nat.pow 2 (e' - e).toNat, e') else (m * Nat.pow 2 (e - e').toNat, e')

/-- The interval of reals that round to the float `m · 2^e` of a format (`m > 0`,
canonical parts). -/
def Interval.ofIn (fmt : Binary.Format) (m : Nat) (e : Int) : Interval :=
  let d : Nat := if e < 2 then (2 - e).toNat else 0
  let s : Nat := (e + d).toNat          -- exponent of 2 that scales `m`
  -- at the bottom of a binade the gap below is half the gap above
  let narrowBelow := m == Nat.pow 2 (fmt.precision - 1) && e > fmt.minStep
  let low :=
    if narrowBelow then (4 * m - 1) * Nat.pow 2 (s - 2) else (2 * m - 1) * Nat.pow 2 (s - 1)
  { d, low, mid := m * Nat.pow 2 s, high := (2 * m + 1) * Nat.pow 2 (s - 1), closed := m % 2 == 0 }

/-- Whether `a · 10^k` lies in the interval. -/
def Interval.holds (iv : Interval) (a : Nat) (k : Int) : Bool :=
  let lo := cmpScaled a k iv.low iv.d
  let hi := cmpScaled a k iv.high iv.d
  let aboveLow := lo == .gt || (iv.closed && lo == .eq)
  let belowHigh := hi == .lt || (iv.closed && hi == .eq)
  aboveLow && belowHigh

/-- `⌊m · 2^e / 10^k⌋`. -/
def floorScaled (iv : Interval) (k : Int) : Nat :=
  if k ≥ 0 then iv.mid / (Nat.pow 10 k.toNat * Nat.pow 2 iv.d)
  else iv.mid * Nat.pow 10 (-k).toNat / Nat.pow 2 iv.d

/-- The exponent `E` with `10^E ≤ m · 2^e < 10^(E+1)`. -/
def decimalExponent (iv : Interval) (m : Nat) (e : Int) : Int :=
  let bits : Int := e + Binary.bitLength m - 1
  let guess : Int := (bits * 30103) / 100000
  let up (g : Int) : Int := if cmpScaled 1 (g + 1) iv.mid iv.d != .gt then g + 1 else g
  let down (g : Int) : Int := if cmpScaled 1 g iv.mid iv.d == .gt then g - 1 else g
  down (down (up (up guess)))

/-- Of two grid points `c · 10^k` and `(c+1) · 10^k` around the value, the nearer one;
an exact tie goes to the even one. -/
def nearer (iv : Interval) (c : Nat) (k : Int) : Nat :=
  -- compare 2·value with (2c+1)·10^k
  match cmpScaled (2 * c + 1) k (2 * iv.mid) iv.d with
  | .gt => c
  | .lt => c + 1
  | .eq => if c % 2 == 0 then c else c + 1

/-- Tries digit counts `n, n+1, …` for at most `fuel` steps. -/
def search (iv : Interval) (top : Int) : Nat → Nat → Nat × Int
  | 0, _ => (iv.mid, -(iv.d : Int))
  | fuel + 1, n =>
    let k := top - n + 1
    let c := floorScaled iv k
    let lowOk := iv.holds c k
    let highOk := iv.holds (c + 1) k
    if lowOk && highOk then (nearer iv c k, k)
    else if lowOk then (c, k)
    else if highOk then (c + 1, k)
    else search iv top fuel (n + 1)

/-- Digits and exponent of the shortest decimal that reads back to the float `m · 2^e`
(`m > 0`) of a format. -/
def shortestIn (fmt : Binary.Format) (m : Nat) (e : Int) : Nat × Int :=
  let (m, e) := canonical fmt m e
  let iv := Interval.ofIn fmt m e
  search iv (decimalExponent iv m e) 17 1

/-- Digits and exponent of the shortest decimal that reads back to the double `m · 2^e`. -/
def shortest (m : Nat) (e : Int) : Nat × Int := shortestIn Binary.binary64 m e

/-- Removes trailing zero digits, raising the exponent. -/
def normalize : Nat → Nat × Int → Nat × Int
  | 0, p => p
  | fuel + 1, (d, k) => if d != 0 && d % 10 == 0 then normalize fuel (d / 10, k + 1) else (d, k)

/-- The decimal digits of a natural number. -/
def digitsOf (n : Nat) : String := String.ofList (Nat.toDigits 10 n)

/-- How a float is written: positional for decimal point positions in
`(minPositional, maxPositional]`, otherwise with an exponent of at least two digits. -/
structure Style where
  minPositional : Int
  maxPositional : Int
  expDigits : Nat

/-- The style of the tool's float text: `0.0001` but `1e-05`, `1000000000000000.0` but `1e+16`. -/
def hostStyle : Style := ⟨-4, 16, 2⟩

/-- Lays out digits `ds` whose decimal point sits after `pt` digits. -/
def layout (st : Style) (ds : String) (pt : Int) : String :=
  let n : Int := ds.length
  if pt ≤ st.minPositional || pt > st.maxPositional then
    let first := ds.take 1
    let rest := ds.drop 1
    let mant := if rest.isEmpty then first.toString else first.toString ++ "." ++ rest.toString
    let ex := pt - 1
    let sign := if ex < 0 then "-" else "+"
    let exDigits := digitsOf ex.natAbs
    let padded := String.ofList (List.replicate (st.expDigits - exDigits.length) '0') ++ exDigits
    mant ++ "e" ++ sign ++ padded
  else if pt ≤ 0 then
    "0." ++ String.ofList (List.replicate (-pt).toNat '0') ++ ds
  else if pt ≥ n then
    ds ++ String.ofList (List.replicate (pt - n).toNat '0') ++ ".0"
  else
    (ds.take pt.toNat).toString ++ "." ++ (ds.drop pt.toNat).toString

/-- The text of a double in the tool's float style; `nan`, `inf` and `-inf` for the
non-finite values. -/
def repr (x : Float) : String :=
  match Binary.kind x with
  | .nan => "nan"
  | .infinite neg => if neg then "-inf" else "inf"
  | .finite p =>
    let sign := if p.neg then "-" else ""
    if p.mant == 0 then sign ++ "0.0"
    else
      let (d, k) := normalize 20 (shortest p.mant p.exp)
      let ds := digitsOf d
      sign ++ layout hostStyle ds (k + ds.length)

/-- The text of a value of a narrower format (held exactly as a double) the way array
libraries write their scalars: the shortest digits of that format, positional when
`1e-4 ≤ |x| < 1e16` (or `x` is zero), otherwise with an exponent. -/
def reprIn (fmt : Binary.Format) (x : Float) : String :=
  match Binary.kind x with
  | .nan => "nan"
  | .infinite neg => if neg then "-inf" else "inf"
  | .finite p =>
    let sign := if p.neg then "-" else ""
    if p.mant == 0 then sign ++ "0.0"
    else
      let (d, k) := normalize 20 (shortestIn fmt p.mant p.exp)
      let ds := digitsOf d
      let pt := k + ds.length
      let ax := x.abs
      let positional := ax ≥ 0.0001 && ax < 10000000000000000.0
      let st : Style := if positional then ⟨-1000, 1000, 2⟩ else ⟨1000, -1000, 2⟩
      sign ++ layout st ds pt

end OnnxFusion.Decimal
