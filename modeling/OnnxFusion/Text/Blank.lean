/-!
# Blank characters

Two sets of blanks. `isAsciiBlank` holds the six ASCII blanks: space, tab, line feed,
carriage return, vertical tab and form feed. `isSpace` is white space in the sense of the
character database (version 14.0): those six, the information separators `\x1c` to `\x1f`,
and the spaces beyond ASCII that `isWideSpace` lists (next line, no-break space, the Ogham
space mark, the en quad to the hair space, the line and paragraph separators, the narrow
no-break space, the medium mathematical space and the ideographic space).
-/

set_option autoImplicit false

namespace OnnxFusion.Text

/-- Whether a character is one of the six ASCII blanks. -/
def isAsciiBlank (c : Char) : Bool :=
  c == ' ' || c == '\t' || c == '\n' || c == '\r' || c == '\x0b' || c == '\x0c'

/-- Whether a character beyond ASCII is a space. -/
def isWideSpace (c : Char) : Bool :=
  let n := c.toNat
  n == 0x85 || n == 0xa0 || n == 0x1680 || (0x2000 ≤ n && n ≤ 0x200a) || n == 0x2028 ||
    n == 0x2029 || n == 0x202f || n == 0x205f || n == 0x3000

/-- Whether a character is white space. -/
def isSpace (c : Char) : Bool :=
  isAsciiBlank c || (0x1c ≤ c.toNat && c.toNat ≤ 0x1f) || isWideSpace c

end OnnxFusion.Text
