import OnnxFusion.Fault
/-!
# UTF-8 decoding

Decodes bytes as UTF-8. A malformed sequence is reported with its first byte, the range of
bytes that began it (the lead byte and the continuation bytes that were still valid) and
the reason; in the replacing mode that range becomes one U+FFFD and decoding goes on after
it. Overlong forms, surrogates and code points above U+10FFFF are malformed.
-/

set_option autoImplicit false

namespace OnnxFusion.Text

/-- A malformed sequence: its start, its end (exclusive) and the reason. -/
structure Malformed where
  start : Nat
  stop : Nat
  reason : String

/-- Number of continuation bytes a lead byte needs and the range of the first one. -/
def leadInfo (b : Nat) : Option (Nat × Nat × Nat) :=
  if 0xC2 ≤ b && b ≤ 0xDF then some (1, 0x80, 0xBF)
  else if b == 0xE0 then some (2, 0xA0, 0xBF)
  else if b == 0xED then some (2, 0x80, 0x9F)
  else if 0xE1 ≤ b && b ≤ 0xEF then some (2, 0x80, 0xBF)
  else if b == 0xF0 then some (3, 0x90, 0xBF)
  else if b == 0xF4 then some (3, 0x80, 0x8F)
  else if 0xF1 ≤ b && b ≤ 0xF3 then some (3, 0x80, 0xBF)
  else none

/-- Reads the continuation bytes of a sequence; returns the code point or the fault. -/
def continuation (pos : Nat) : Nat → Nat → Nat → Nat → Nat → List Nat → Except Malformed (Nat × List Nat)
  | 0, _, _, _, acc, rest => .ok (acc, rest)
  | k + 1, start, lo, hi, acc, rest =>
    match rest with
    | [] => .error ⟨start, pos, "unexpected end of data"⟩
    | c :: rest' =>
      if lo ≤ c && c ≤ hi then continuation (pos + 1) k start 0x80 0xBF (acc * 64 + (c - 0x80)) rest'
      else .error ⟨start, pos, "invalid continuation byte"⟩

/-- One step of decoding: the code point and the rest, or the malformed range. -/
def step (pos : Nat) (b : Nat) (rest : List Nat) : Except Malformed (Nat × Nat × List Nat) :=
  if b < 0x80 then .ok (b, 1, rest)
  else
    match leadInfo b with
    | none => .error ⟨pos, pos + 1, "invalid start byte"⟩
    | some (k, lo, hi) =>
      let first := if k == 1 then b - 0xC0 else if k == 2 then b - 0xE0 else b - 0xF0
      match continuation (pos + 1) k pos lo hi first rest with
      | .ok (cp, rest') => .ok (cp, k + 1, rest')
      | .error m => .error m

/-- Decodes bytes, stopping at the first malformed sequence (fuel: one step per byte). -/
def decodeStrictAux : Nat → Nat → List Nat → List Char → Except (Nat × Malformed) String
  | 0, _, _, acc => .ok (String.ofList acc.reverse)
  | _ + 1, _, [], acc => .ok (String.ofList acc.reverse)
  | fuel + 1, pos, b :: rest, acc =>
    match step pos b rest with
    | .ok (cp, used, rest') => decodeStrictAux fuel (pos + used) rest' (Char.ofNat cp :: acc)
    | .error m => .error (b, m)

/-- Decodes bytes, replacing every malformed sequence by U+FFFD. -/
def decodeReplacingAux : Nat → Nat → List Nat → List Char → String
  | 0, _, _, acc => String.ofList acc.reverse
  | _ + 1, _, [], acc => String.ofList acc.reverse
  | fuel + 1, pos, b :: rest, acc =>
    match step pos b rest with
    | .ok (cp, used, rest') => decodeReplacingAux fuel (pos + used) rest' (Char.ofNat cp :: acc)
    | .error m => decodeReplacingAux fuel m.stop ((b :: rest).drop (m.stop - pos)) ('\uFFFD' :: acc)

/-- The text of UTF-8 bytes, or the fault at the first malformed sequence. -/
def decodeUtf8 (bytes : List Nat) : Outcome String :=
  match decodeStrictAux (bytes.length + 1) 0 bytes [] with
  | .ok s => .ok s
  | .error (b, m) => .error (.undecodable b m.start m.stop m.reason)

/-- The text of UTF-8 bytes with each malformed sequence replaced. -/
def decodeUtf8Replacing (bytes : List Nat) : String :=
  decodeReplacingAux (bytes.length + 1) 0 bytes []

/-- The UTF-8 bytes of a text. -/
def utf8Bytes (s : String) : List Nat := s.toUTF8.toList.map (·.toNat)

end OnnxFusion.Text
