import OnnxFusion.Text.Word
/-!
# Terminal escape sequences

Two kinds of escape sequences take no room on a terminal, so a text is measured without them:

* a control sequence: escape, `[`, any parameter bytes (`0` to `?`), any intermediate bytes
  (blank to `/`) and one final byte (`@` to `~`); it is dropped whole;
* a hyperlink: escape, `]8;`, a list of `key=value` parameters (keys and values are runs of
  word characters, `isWordChar`), `;`, a target running to the next escape, the string
  terminator (escape and backslash), a link text running to the next escape, and the closing
  escape, `]8;;`, escape and backslash; it is replaced by its link text.

`strip` scans a text from the left and takes each sequence where it starts, going on after
it; `present` tells whether a text holds any sequence. A text without an escape character is
its own stripped form (`stripFrom_of_no_escape`).
-/

set_option autoImplicit false

namespace OnnxFusion.Text.Escape

/-- The escape character that opens every sequence. -/
def escape : Char := '\x1b'

/-- Whether characters form a list of hyperlink parameters: pairs `key=value` of nonempty
words, each pair optionally closed by a colon, with nothing between them. The four flags
say which positions of the pattern the characters read so far can end at: before a pair,
inside a key, right after `=`, inside a value. -/
def paramsFrom : List Char → Bool → Bool → Bool → Bool → Bool
  | [], beforePair, _, _, inValue => beforePair || inValue
  | c :: cs, beforePair, inKey, afterEq, inValue =>
    if isWordChar c then paramsFrom cs false (beforePair || inKey || inValue) false (afterEq || inValue)
    else if c == '=' then paramsFrom cs false false inKey false
    else if c == ':' then paramsFrom cs inValue false false false
    else false

/-- Whether characters form a list of hyperlink parameters; the empty list is one. -/
def isParams (cs : List Char) : Bool := paramsFrom cs true false false false

/-- Whether a character is a parameter byte of a control sequence. -/
def isParameterByte (c : Char) : Bool := 0x30 ≤ c.toNat && c.toNat ≤ 0x3f

/-- Whether a character is an intermediate byte of a control sequence. -/
def isIntermediateByte (c : Char) : Bool := 0x20 ≤ c.toNat && c.toNat ≤ 0x2f

/-- Whether a character is the final byte of a control sequence. -/
def isFinalByte (c : Char) : Bool := 0x40 ≤ c.toNat && c.toNat ≤ 0x7e

/-- The text after a control sequence, given the text after its escape and `[`; none when
the sequence is not complete. The three byte classes are disjoint, so taking each run as
long as it goes is the only way to match. -/
def afterControl (cs : List Char) : Option (List Char) :=
  match (cs.dropWhile isParameterByte).dropWhile isIntermediateByte with
  | c :: rest => if isFinalByte c then some rest else none
  | [] => none

/-- The string terminator: escape and backslash. -/
def terminator : List Char := [escape, '\\']

/-- The closing sequence of a hyperlink. -/
def linkClose : List Char := [escape, ']', '8', ';', ';', escape, '\\']

/-- The link text of a hyperlink and the text after it, given the text after its escape and
`]8;`; none when the hyperlink is not complete. Neither the parameters nor the target nor
the link text can hold the character that ends it, so each runs to the first such one. -/
def afterLink (cs : List Char) : Option (List Char × List Char) :=
  let params := cs.takeWhile (· != ';')
  match cs.drop params.length with
  | [] => none
  | _ :: rest =>
    let target := rest.takeWhile (· != escape)
    let afterTarget := rest.drop target.length
    if !isParams params || target.isEmpty || !terminator.isPrefixOf afterTarget then none
    else
      let more := afterTarget.drop terminator.length
      let text := more.takeWhile (· != escape)
      let afterText := more.drop text.length
      if text.isEmpty || !linkClose.isPrefixOf afterText then none
      else some (text, afterText.drop linkClose.length)

/-- The sequence at the head of a text, if one starts there: what it shows and the text
after it. -/
def sequence? : List Char → Option (List Char × List Char)
  | e :: '[' :: rest => if e == escape then (afterControl rest).map fun r => ([], r) else none
  | e :: ']' :: '8' :: ';' :: rest => if e == escape then afterLink rest else none
  | _ => none

/-- Characters with every sequence replaced by what it shows, scanning from the left; each
step reads at least one character, so `fuel` as large as the text is enough. -/
def stripFrom : Nat → List Char → List Char
  | 0, cs => cs
  | _ + 1, [] => []
  | fuel + 1, c :: cs =>
    match sequence? (c :: cs) with
    | some (shown, rest) => shown ++ stripFrom fuel rest
    | none => c :: stripFrom fuel cs

/-- A text with every escape sequence replaced by what it shows. -/
def strip (s : String) : String := String.ofList (stripFrom s.length s.toList)

/-- Whether a sequence starts somewhere in the characters. -/
def presentIn : List Char → Bool
  | [] => false
  | c :: cs => (sequence? (c :: cs)).isSome || presentIn cs

/-- Whether a text holds an escape sequence. -/
def present (s : String) : Bool := presentIn s.toList

/-- No sequence starts at a character other than the escape. -/
theorem sequence?_of_ne {c : Char} (cs : List Char) (h : c ≠ escape) :
    sequence? (c :: cs) = none := by
  unfold sequence?
  split <;> simp_all

/-- Characters without an escape are left as they are. -/
theorem stripFrom_of_no_escape (fuel : Nat) (cs : List Char) (h : escape ∉ cs) :
    stripFrom fuel cs = cs := by
  induction fuel generalizing cs with
  | zero => rfl
  | succ fuel ih =>
    cases cs with
    | nil => rfl
    | cons c cs =>
      have hc : c ≠ escape := fun hc => h (by simp [hc])
      have hrest : escape ∉ cs := fun hx => h (by simp [hx])
      simp [stripFrom, sequence?_of_ne cs hc, ih cs hrest]

end OnnxFusion.Text.Escape
