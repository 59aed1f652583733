import OnnxFusion.Text.Blank
/-!
# Release versions

A package version is read from the package's initialization text: the first line that starts
with `__version__`, then blanks, `=`, blanks, a quote, at least one character that is not a
quote, and a quote. Without such a line (or without the text) the version is `0.1.0`.

A valid release version is written in its normal form; any other text is kept as it is:

```
[N!]N(.N)*[{a|b|rc}N][.postN][.devN][+local]
```

Reading ignores blanks around the text and a leading `v`. A pre-release is spelled
`a`/`alpha`, `b`/`beta` or `c`/`rc`/`pre`/`preview`, a post-release `post`/`rev`/`r` or
`-N`, a development release `dev`; each may be set off by `-`, `_` or `.`, and a missing
number is 0. Numbers lose their leading zeros; the local part is lowercased with its
separators written as `.`.

Letters match without regard to case, as a case-blind pattern matches them: a capital
matches its small letter, the dotted capital `İ` and the dotless `ı` match `i`, the long
`ſ` matches `s` and the Kelvin sign matches `k`. What is written keeps the spelling,
lowered: `1.0.poſt1` is `1.0.post1`, but `1.0prevıew1` stays a pre-release named
`prevıew`, since only the exact spellings are renamed.
-/

set_option autoImplicit false

namespace OnnxFusion

namespace Version

/-- Texts read with universal newlines: `\r\n` and a lone `\r` become `\n`. -/
def universalNewlines : List Char → List Char
  | '\r' :: '\n' :: rest => '\n' :: universalNewlines rest
  | '\r' :: rest => '\n' :: universalNewlines rest
  | c :: rest => c :: universalNewlines rest
  | [] => []

/-- Whether a character is a quote. -/
def isQuote (c : Char) : Bool := c == '\'' || c == '"'

/-- The quoted value of a `__version__` line starting here. -/
def versionAt (cs : List Char) : Option String :=
  if !("__version__".toList.isPrefixOf cs) then none
  else
    match (cs.drop 11).dropWhile Text.isSpace with
    | '=' :: rest =>
      match rest.dropWhile Text.isSpace with
      | q :: body =>
        if !isQuote q then none
        else
          let value := body.takeWhile (!isQuote ·)
          if value.isEmpty || (body.drop value.length).isEmpty then none
          else some (String.ofList value)
      | [] => none
    | _ => none

/-- The starts of the lines of a text. -/
def lineStarts : List Char → List (List Char)
  | [] => [[]]
  | cs => cs :: lineTails cs
where
  /-- The texts after each newline. -/
  lineTails : List Char → List (List Char)
    | [] => []
    | '\n' :: rest => rest :: lineTails rest
    | _ :: rest => lineTails rest

/-- The version written in an initialization text, or `0.1.0`. -/
def declared (text : Option String) : String :=
  match text with
  | none => "0.1.0"
  | some t =>
    match (lineStarts (universalNewlines t.toList)).findSome? versionAt with
    | some v => v
    | none => "0.1.0"

/-! ### Normal form -/

/-- The letter a character matches when letters are compared without regard to case. -/
def foldCase (c : Char) : Char :=
  if c.isUpper then c.toLower
  else if c == 'İ' || c == 'ı' then 'i'
  else if c == 'ſ' then 's'
  else if c == '\u212A' then 'k'
  else c

/-- A character lowered as text: the dotted capital `I` becomes `i` and a combining dot. -/
def lowerText (c : Char) : String :=
  if c == 'İ' then "i\u0307" else if c == '\u212A' then "k" else c.toLower.toString

/-- A run of digits and the rest. -/
def digits (cs : List Char) : List Char × List Char := (cs.takeWhile Char.isDigit, cs.dropWhile Char.isDigit)

/-- A number without leading zeros. -/
def numberText (ds : List Char) : String :=
  toString (ds.foldl (fun n c => 10 * n + (c.toNat - '0'.toNat)) 0)

/-- An optional separator. -/
def skipSep : List Char → List Char
  | c :: rest => if c == '-' || c == '_' || c == '.' then rest else c :: rest
  | [] => []

/-- The first of several words the text starts with, and the rest. -/
def word (words : List String) (cs : List Char) : Option (String × List Char) :=
  words.findSome? fun w => if w.toList.isPrefixOf cs then some (w, cs.drop w.length) else none

/-- A labelled segment: optional separator, one of the words, optional separator and number.
Gives the word, the number (0 when missing) and the rest. -/
def labelled (words : List String) (cs : List Char) : Option (String × String × List Char) :=
  match word words (skipSep cs) with
  | none => none
  | some (w, rest) =>
    let afterSep := skipSep rest
    let (ds, more) := digits afterSep
    if ds.isEmpty then some (w, "0", afterSep) else some (w, numberText ds, more)

/-- The release numbers `N(.N)*` and the rest. -/
def release (cs : List Char) : Option (List String × List Char) :=
  let (first, rest) := digits cs
  if first.isEmpty then none
  else
    let rec more : Nat → List Char → List String × List Char
      | 0, cs => ([], cs)
      | fuel + 1, '.' :: cs =>
        let (ds, r) := digits cs
        if ds.isEmpty then ([], '.' :: cs)
        else let (ns, r') := more fuel r; (numberText ds :: ns, r')
      | _, cs => ([], cs)
    let (ns, r) := more rest.length rest
    some (numberText first :: ns, r)

/-- The name a pre-release spelling is written with: its lowered spelling, with `alpha`,
`beta`, `c`, `pre` and `preview` renamed `a`, `b` and `rc`. -/
def preName (spelled : String) : String :=
  if spelled == "alpha" then "a"
  else if spelled == "beta" then "b"
  else if spelled == "c" || spelled == "pre" || spelled == "preview" then "rc"
  else spelled

/-- The local part: alphanumeric runs separated by single `-`, `_` or `.`. Each character is
given as written and as matched. -/
def localParts (cs : List (Char × Char)) : Option (List String) :=
  let isAlnum := fun (p : Char × Char) => p.2.isDigit || (p.2 ≥ 'a' && p.2 ≤ 'z')
  let rec go : Nat → List (Char × Char) → Option (List String)
    | 0, _ => none
    | fuel + 1, cs =>
      let part := cs.takeWhile isAlnum
      if part.isEmpty then none
      else
        let norm := if part.all (·.2.isDigit) then numberText (part.map (·.2))
          else String.join (part.map fun p => lowerText p.1)
        match cs.drop part.length with
        | [] => some [norm]
        | (c, _) :: rest =>
          if c == '-' || c == '_' || c == '.' then (go fuel rest).map (norm :: ·) else none
  go (cs.length + 1) cs

/-- The normal form of a version text, or none when it is not a valid version. -/
def normalForm? (text : String) : Option String := do
  let written := ((text.toList.dropWhile Text.isSpace).reverse.dropWhile Text.isSpace).reverse
  let written := match written with
    | c :: rest => if foldCase c == 'v' then rest else written
    | [] => []
  let cs := written.map foldCase
  -- the characters as written from where the folded suffix `rest` starts
  let writtenAt := fun (rest : List Char) => written.drop (written.length - rest.length)
  -- epoch
  let (epoch, cs) := match digits cs with
    | (ds, '!' :: rest) => if ds.isEmpty then ("", cs) else (numberText ds ++ "!", rest)
    | _ => ("", cs)
  let epoch := if epoch == "0!" then "" else epoch
  let (rel, cs) ← release cs
  -- pre-release
  let (pre, cs) := match labelled ["alpha", "a", "beta", "b", "preview", "pre", "c", "rc"] cs with
    | some (w, n, rest) =>
      let spelled := String.join (((writtenAt (skipSep cs)).take w.length).map lowerText)
      (preName spelled ++ n, rest)
    | none => ("", cs)
  -- post-release
  let (post, cs) := match cs with
    | '-' :: rest =>
      let (ds, more) := digits rest
      if !ds.isEmpty then (".post" ++ numberText ds, more)
      else match labelled ["post", "rev", "r"] cs with
        | some (_, n, more) => (".post" ++ n, more)
        | none => ("", cs)
    | _ =>
      match labelled ["post", "rev", "r"] cs with
      | some (_, n, more) => (".post" ++ n, more)
      | none => ("", cs)
  -- development release
  let (dev, cs) := match labelled ["dev"] cs with
    | some (_, n, more) => (".dev" ++ n, more)
    | none => ("", cs)
  let loc ← match cs with
    | [] => some ""
    | '+' :: rest => (localParts ((writtenAt rest).zip rest)).map fun ps => "+" ++ ".".intercalate ps
    | _ => none
  pure (epoch ++ ".".intercalate rel ++ pre ++ post ++ dev ++ loc)

/-- The version as it is written: its normal form when it is valid, else the text itself. -/
def normalize (text : String) : String := (normalForm? text).getD text

end Version

end OnnxFusion
