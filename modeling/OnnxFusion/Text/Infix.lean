/-!
# Occurrence of one text in another

`occursIn pat s` holds when the characters of `pat` appear consecutively somewhere in `s`;
the empty text occurs in every text. `replaceAll s pat repl` writes `repl` for each
occurrence of `pat`, found from the left and not overlapping; an empty `pat` occurs before
every character and at the end.
-/

set_option autoImplicit false

namespace OnnxFusion.Text

/-- Whether `pat` occurs in the characters `cs` at some position. -/
def occursInChars (pat : List Char) : List Char → Bool
  | [] => pat.isEmpty
  | c :: rest => pat.isPrefixOf (c :: rest) || occursInChars pat rest

/-- Whether `pat` occurs in `s`. -/
def occursIn (pat s : String) : Bool := occursInChars pat.toList s.toList

/-- The characters `cs` with each occurrence of `pat` replaced by `repl`, scanning from the
left and going on after each replaced occurrence; `fuel` bounds the steps. -/
def replaceFrom (pat repl : List Char) : Nat → List Char → List Char
  | 0, cs => cs
  | _ + 1, [] => []
  | fuel + 1, c :: rest =>
    if pat.isPrefixOf (c :: rest) then repl ++ replaceFrom pat repl fuel ((c :: rest).drop pat.length)
    else c :: replaceFrom pat repl fuel rest

/-- A text with each occurrence of `pat` replaced by `repl`. A nonempty `pat` takes at least
one character a step, so the length of the text is fuel enough. -/
def replaceAll (s pat repl : String) : String :=
  if pat.isEmpty then String.ofList (s.toList.flatMap (repl.toList ++ [·]) ++ repl.toList)
  else String.ofList (replaceFrom pat.toList repl.toList s.length s.toList)

end OnnxFusion.Text
