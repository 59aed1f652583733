import OnnxFusion.Random.Twister
/-!
# Standard normal samples

Samples come in pairs by the polar method: two doubles `u, v` give `x₁ = 2u - 1` and
`x₂ = 2v - 1`; a pair with `r² = x₁² + x₂²` outside `(0, 1)` is drawn again, otherwise
`f = √(-2 ln r² / r²)` gives the sample `f · x₂`, and `f · x₁` is kept for the next request.
Seeding clears the kept sample.
-/

set_option autoImplicit false

namespace OnnxFusion

/-- A source of standard normal samples: a generator and the sample kept from the last pair. -/
structure Normal where
  gen : Twister
  kept : Option Float
  deriving Inhabited

namespace Normal

/-- A source over a freshly seeded generator. -/
def ofTwister (g : Twister) : Normal := { gen := g, kept := none }

/-- The bound on redrawn pairs; a pair lies in the unit disc with probability `π/4`. -/
def redraws : Nat := 10000

/-- One accepted pair `(f · x₁, f · x₂)` by the polar method, drawing at most `fuel` pairs. -/
def polar (g : Twister) : Nat → Float × Float × Twister
  | 0 => (0.0, 0.0, g)
  | fuel + 1 =>
    let (u, g) := g.nextDouble
    let (v, g) := g.nextDouble
    let x1 := 2.0 * u - 1.0
    let x2 := 2.0 * v - 1.0
    let r2 := x1 * x1 + x2 * x2
    if r2 ≥ 1.0 || r2 == 0.0 then polar g fuel
    else
      let f := Float.sqrt (-2.0 * Float.log r2 / r2)
      (f * x1, f * x2, g)

/-- The next sample. -/
def next (s : Normal) : Float × Normal :=
  match s.kept with
  | some x => (x, { s with kept := none })
  | none =>
    let (keep, out, g) := polar s.gen redraws
    (out, { gen := g, kept := some keep })

/-- The next `n` samples in order. -/
def take (s : Normal) : Nat → List Float × Normal
  | 0 => ([], s)
  | n + 1 =>
    let (x, s) := s.next
    let (rest, s) := s.take n
    (x :: rest, s)

end Normal

end OnnxFusion
