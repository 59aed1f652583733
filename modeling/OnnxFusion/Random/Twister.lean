/-!
# The 32-bit Mersenne Twister

The generator keeps 624 words and a position in them. Seeding with one word `s` fills word
`0` with `s` and word `i + 1` with `1812433253 · (w ⊕ (w >> 30)) + i + 1` of word `w = i`
(all modulo `2^32`); seeding with a key list mixes the key into a state first seeded with
`19650218`. When the position reaches the end, the words are twisted in place; every output
word is a tempered state word.

A double in `[0, 1)` takes 27 bits of one output and 26 of the next:
`((a >> 5) · 2^26 + (b >> 6)) / 2^53`.
-/

set_option autoImplicit false

namespace OnnxFusion

/-- The state of the generator: the words and the position of the next one to use. -/
structure Twister where
  key : Array UInt32
  pos : Nat
  deriving Inhabited

namespace Twister

/-- The number of state words. -/
def size : Nat := 624

/-- The distance of the word mixed in by the twist. -/
def shift : Nat := 397

/-- The word a state word follows in seeding: `1812433253 · (w ⊕ (w >> 30)) + i`. -/
def follow (w : UInt32) (i : UInt32) : UInt32 := (1812433253 : UInt32) * (w ^^^ (w >>> 30)) + i

/-- The words of a state seeded with one word. -/
def seedWords (s : UInt32) : Array UInt32 :=
  ((List.range (size - 1)).foldl
    (fun (acc : Array UInt32 × UInt32) i =>
      let next := follow acc.2 (UInt32.ofNat (i + 1))
      (acc.1.push next, next))
    (#[s], s)).1

/-- The generator seeded with one word. -/
def seed (s : UInt32) : Twister := { key := seedWords s, pos := size }

/-- The word at an index. -/
def word (key : Array UInt32) (i : Nat) : UInt32 := key.getD i 0

/-- One step of mixing a key word into the state at index `i`: the new word at `i` from the
word before it, a multiplier and an addend. -/
def mixAt (key : Array UInt32) (i : Nat) (mult : UInt32) (add : UInt32 → UInt32) : Array UInt32 :=
  let prev := word key (i - 1)
  key.set! i (add ((word key i ^^^ ((prev ^^^ (prev >>> 30)) * mult))))

/-- After writing index `i`, the next index; at the end word 0 takes the last word and the
index goes back to 1. -/
def advance (key : Array UInt32) (i : Nat) : Array UInt32 × Nat :=
  if i + 1 ≥ size then (key.set! 0 (word key (size - 1)), 1) else (key, i + 1)

/-- The generator seeded with a key list (not empty). -/
def ofKey (init : List UInt32) : Twister :=
  let n := init.length
  let start := seedWords 19650218
  let (k1, i1, _) := (List.range (max size n)).foldl
    (fun (acc : Array UInt32 × Nat × Nat) _ =>
      let (key, i, j) := acc
      let key := mixAt key i 1664525 (· + init.getD j 0 + UInt32.ofNat j)
      let (key, i) := advance key i
      (key, i, if j + 1 ≥ n then 0 else j + 1))
    (start, 1, 0)
  let (k2, _) := (List.range (size - 1)).foldl
    (fun (acc : Array UInt32 × Nat) _ =>
      let (key, i) := acc
      let key := mixAt key i 1566083941 (· - UInt32.ofNat i)
      advance key i)
    (k1, i1)
  { key := k2.set! 0 0x80000000, pos := size }

/-- The twist of the word at index `i`, reading words after it as they are at that moment. -/
def twistAt (key : Array UInt32) (i : Nat) : Array UInt32 :=
  let next := (i + 1) % size
  let y := (word key i &&& 0x80000000) ||| (word key next &&& 0x7fffffff)
  let mag : UInt32 := if y &&& 1 == 1 then 0x9908b0df else 0
  key.set! i (word key ((i + shift) % size) ^^^ (y >>> 1) ^^^ mag)

/-- All words twisted in order, in place. -/
def twist (key : Array UInt32) : Array UInt32 := (List.range size).foldl twistAt key

/-- A state word tempered into an output word. -/
def temper (y : UInt32) : UInt32 :=
  let y := y ^^^ (y >>> 11)
  let y := y ^^^ ((y <<< 7) &&& 0x9d2c5680)
  let y := y ^^^ ((y <<< 15) &&& 0xefc60000)
  y ^^^ (y >>> 18)

/-- The next output word and the generator after it. -/
def next (g : Twister) : UInt32 × Twister :=
  let g := if g.pos ≥ size then { key := twist g.key, pos := 0 } else g
  (temper (word g.key g.pos), { g with pos := g.pos + 1 })

/-- The next double in `[0, 1)`, from two output words. -/
def nextDouble (g : Twister) : Float × Twister :=
  let (a, g) := g.next
  let (b, g) := g.next
  let hi := (a >>> 5).toNat
  let lo := (b >>> 6).toNat
  (Float.ofNat (hi * 67108864 + lo) / 9007199254740992.0, g)

end Twister

end OnnxFusion
