/-!
# Binary floating point: exact parts and rounding to a narrower format

A finite double is `(-1)^s · m · 2^e` with a natural significand `m`. This module reads
those parts off the bit pattern and rounds an exact value `± n · 2^e` (any natural `n`)
to a binary format given by its precision and exponent range, ties to even, overflow to
infinity. Rounding a double to binary32 or binary16 is the special case of a 53-bit `n`.

Arithmetic in a narrower format is done as the double operation followed by one rounding:
for `+ - * /` and square root this equals the correctly rounded narrow result, because
53 ≥ 2p + 2 for p = 24 and p = 11.
-/

set_option autoImplicit false

namespace OnnxFusion.Binary

/-- The exact parts of a finite double: sign, significand and power of two. -/
structure Parts where
  neg : Bool
  mant : Nat
  exp : Int
  deriving Inhabited

/-- What a bit pattern holds. -/
inductive Kind where
  | finite (p : Parts)
  | infinite (neg : Bool)
  | nan
  deriving Inhabited

/-- Decodes a double. Subnormals keep the exponent `-1074` and a significand below 2^52. -/
def kind (x : Float) : Kind :=
  let b : Nat := x.toBits.toNat
  let neg := b / Nat.pow 2 63 == 1
  let e : Nat := (b / Nat.pow 2 52) % 2048
  let f : Nat := b % Nat.pow 2 52
  if e == 2047 then
    if f == 0 then .infinite neg else .nan
  else if e == 0 then .finite ⟨neg, f, -1074⟩
  else .finite ⟨neg, f + Nat.pow 2 52, (e : Int) - 1075⟩

/-- A binary interchange format: precision in bits, the exponent of the smallest
subnormal step, and the exponent of the step of the largest binade. -/
structure Format where
  precision : Nat
  minStep : Int
  maxStep : Int

/-- IEEE binary64. -/
def binary64 : Format := ⟨53, -1074, 971⟩
/-- IEEE binary32. -/
def binary32 : Format := ⟨24, -149, 104⟩
/-- IEEE binary16. -/
def binary16 : Format := ⟨11, -24, 5⟩

/-- `2^k` as a double, exact for every `k` that the formats here use. -/
def pow2 (k : Int) : Float := Float.scaleB 1.0 k

/-- The double `± n · 2^e`, assuming it is representable. -/
def assemble (neg : Bool) (n : Nat) (e : Int) : Float :=
  let v := Float.scaleB (Float.ofNat n) e
  if neg then -v else v

/-- Position of the highest set bit plus one (`0` for `0`). -/
def bitLength (n : Nat) : Nat := if n == 0 then 0 else Nat.log2 n + 1

/-- `n / 2^s` rounded to nearest, ties to even. -/
def shiftRoundEven (n s : Nat) : Nat :=
  if s == 0 then n
  else
    let q := n / Nat.pow 2 s
    let r := n % Nat.pow 2 s
    let half := Nat.pow 2 (s - 1)
    if r > half || (r == half && q % 2 == 1) then q + 1 else q

/-- Rounds the exact value `± n · 2^e` into `fmt` and returns it as a double. -/
def Format.roundParts (fmt : Format) (neg : Bool) (n : Nat) (e : Int) : Float :=
  if n == 0 then assemble neg 0 0
  else
    let top : Int := e + bitLength n - 1
    let step : Int := max (top - fmt.precision + 1) fmt.minStep
    let q : Nat :=
      if e ≥ step then n * Nat.pow 2 (e - step).toNat
      else shiftRoundEven n (step - e).toNat
    let overflow : Bool :=
      if step ≥ fmt.maxStep then
        q * Nat.pow 2 (step - fmt.maxStep).toNat > Nat.pow 2 fmt.precision - 1
      else false
    if overflow then (if neg then -pow2 2000 else pow2 2000)
    else assemble neg q step

/-- `a · b + c` computed exactly and rounded once into `fmt` (a fused multiply-add). An exact
zero is `+0`, unless the product and `c` are both negative zeros. With a non-finite operand
the result is that of the separate operations, which is then exact. -/
def Format.fma (fmt : Format) (a b c : Float) : Float :=
  match kind a, kind b, kind c with
  | .finite p, .finite q, .finite r =>
    let pe : Int := p.exp + q.exp
    let pm : Int := (if p.neg != q.neg then -1 else 1) * ((p.mant * q.mant : Nat) : Int)
    let cm : Int := (if r.neg then -1 else 1) * (r.mant : Int)
    let e : Int := min pe r.exp
    let total : Int := pm * Int.pow 2 (pe - e).toNat + cm * Int.pow 2 (r.exp - e).toNat
    if total == 0 then
      if pm == 0 && cm == 0 && p.neg != q.neg && r.neg then -0.0 else 0.0
    else fmt.roundParts (total < 0) total.natAbs e
  | _, _, _ => a * b + c

/-- Rounds a double into `fmt`; infinities and NaN pass through. -/
def Format.round (fmt : Format) (x : Float) : Float :=
  match kind x with
  | .finite p => fmt.roundParts p.neg p.mant p.exp
  | _ => x

/-- The integer `i` rounded into `fmt`. -/
def Format.ofInt (fmt : Format) (i : Int) : Float :=
  fmt.roundParts (i < 0) i.natAbs 0

/-- Whether a double is NaN. -/
def isNaN (x : Float) : Bool :=
  match kind x with
  | .nan => true
  | _ => false

/-- Whether a double is finite. -/
def isFinite (x : Float) : Bool :=
  match kind x with
  | .finite _ => true
  | _ => false

/-- The sign bit of a double (true for `-0.0`). -/
def signBit (x : Float) : Bool := x.toBits.toNat / Nat.pow 2 63 == 1

/-- Positive infinity. -/
def infinity : Float := pow2 2000

/-- A quiet NaN. -/
def nan : Float := 0.0 / 0.0

/-- The truncation of a finite double toward zero, as an integer. -/
def truncInt (x : Float) : Option Int :=
  match kind x with
  | .finite p =>
    let mag : Nat :=
      if p.exp ≥ 0 then p.mant * Nat.pow 2 p.exp.toNat else p.mant / Nat.pow 2 (-p.exp).toNat
    some (if p.neg then -(mag : Int) else mag)
  | _ => none

/-- Whether a finite double is a whole number. -/
def isWhole (x : Float) : Bool :=
  match kind x with
  | .finite p => p.exp ≥ 0 || p.mant % Nat.pow 2 (-p.exp).toNat == 0
  | _ => false

/-- Exact comparison of a double with an integer; `none` when the double is NaN. -/
def compareInt (x : Float) (i : Int) : Option Ordering :=
  match kind x with
  | .nan => none
  | .infinite neg => some (if neg then .lt else .gt)
  | .finite p =>
    -- compare (±m · 2^e) with i by scaling both to a common power of two
    let shift : Nat := if p.exp < 0 then (-p.exp).toNat else 0
    let lhsMag : Nat := if p.exp ≥ 0 then p.mant * Nat.pow 2 p.exp.toNat else p.mant
    let lhs : Int := if p.neg then -(lhsMag : Int) else lhsMag
    let rhs : Int := i * (Nat.pow 2 shift : Nat)
    some (compare lhs rhs)

end OnnxFusion.Binary
