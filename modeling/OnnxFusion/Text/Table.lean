import OnnxFusion.Text.Number
import OnnxFusion.Text.Escape
import OnnxFusion.Text.Infix
import OnnxFusion.Numeric.Fixed
/-!
# Pipe tables

A table of headers and rows is laid out column by column, as a pipe table:

* Texts are read and measured without their terminal escape sequences (`Text.Escape.strip`):
  a colour code takes no room, and a hyperlink takes the room of its link text.
* Every column gets a kind, the most general over its cells in the order
  *bool < int < float < text*, starting from *bool*: `True` and `False` are *bool*, a text
  that reads as an integer is *int*, one that reads as a float is *float* (an infinite or NaN
  reading only when the text is `inf`, `-inf` or `nan` in lower case), a float value is
  *float*, anything else (the empty text too) is *text*.
* In an *int* or *float* column, float cells are written in the general 6-digit format;
  a float text has the number it shows rewritten in that format, its escape sequences kept.
  Number columns are aligned on their decimal point and then to the right, and so is their
  header. Other columns and headers are aligned to the left, their cells first trimmed of
  white space at both ends.
* A column is at least two wider than its header. Cells are set off by a blank on either
  side and separated by pipes; a rule of dashes follows the header row.
-/

set_option autoImplicit false

namespace OnnxFusion.Table

/-- A table cell: a text (read for its kind), a float value, or any other value shown as text
(its kind is always text). -/
inductive Cell
  | text (s : String)
  | real (x : Float)
  | shown (s : String)
  deriving Inhabited

/-- The kinds of columns, from the least general. -/
inductive Kind
  | bool
  | int
  | float
  | text
  deriving DecidableEq, Inhabited

/-- The rank of a kind by generality. -/
def Kind.rank : Kind → Nat
  | .bool => 0
  | .int => 1
  | .float => 2
  | .text => 3

/-- The more general of two kinds. -/
def Kind.join (a b : Kind) : Kind := if a.rank ≥ b.rank then a else b

/-- Whether a kind is a number kind. -/
def Kind.numeric : Kind → Bool
  | .int | .float => true
  | _ => false

/-- Whether a text reads as a number; an infinite or NaN reading counts only for the exact
lower-case words. -/
def isNumber (s : String) : Bool :=
  match Text.readFloat? s with
  | some x => if x.isNaN || x.isInf then s.toLower == "inf" || s.toLower == "-inf" || s.toLower == "nan" else true
  | none => false

/-- The kind of one cell, read without escape sequences. -/
def Cell.kind : Cell → Kind
  | .text t =>
    let s := Text.Escape.strip t
    if s == "True" || s == "False" then .bool
    else if (Text.readInt? s).isSome then .int
    else if isNumber s then .float
    else .text
  | .real _ => .float
  | .shown _ => .text

/-- The kind of a column. -/
def columnKind (cells : List Cell) : Kind := cells.foldl (fun k c => k.join c.kind) .bool

/-- A cell as written in a column of a kind. -/
def Cell.render (k : Kind) : Cell → String
  | .text s =>
    if k == .float then
      let shown := Text.Escape.strip s
      match Text.readFloat? shown with
      | some x => Text.replaceAll s shown (Decimal.general x 6)
      | none => s
    else s
  | .real x => if k == .text then Decimal.repr x else Decimal.general x 6
  | .shown s => s

/-- The number of characters after the decimal point of a number text (after the exponent
mark when there is no point); none for integers and other texts. -/
def afterPoint (s : String) : Option Nat :=
  if !isNumber s || (Text.readInt? s).isSome then none
  else
    let cs := s.toLower.toList
    let tail (c : Char) : Option Nat :=
      if cs.contains c then some ((cs.reverse.takeWhile (· != c)).length) else none
    match tail '.' with
    | some n => some n
    | none => tail 'e'

/-- The room a text takes: its length without escape sequences. -/
def visibleWidth (s : String) : Nat := (Text.Escape.strip s).length

/-- Blanks before a text up to a width. -/
def padLeft (w : Nat) (s : String) : String :=
  String.ofList (List.replicate (w - visibleWidth s) ' ') ++ s

/-- Blanks after a text up to a width. -/
def padRight (w : Nat) (s : String) : String :=
  s ++ String.ofList (List.replicate (w - visibleWidth s) ' ')

/-- A text without white space at either end. -/
def trim (s : String) : String :=
  String.ofList ((s.toList.dropWhile Text.isSpace).reverse.dropWhile Text.isSpace).reverse

/-- The texts of a number column aligned on their decimal points. -/
def alignDecimal (cells : List String) : List String :=
  let after : List Int := cells.map fun s => match afterPoint (Text.Escape.strip s) with
    | some n => (n : Int)
    | none => -1
  let most := after.foldl max (-1)
  (cells.zip after).map fun (s, a) => s ++ String.ofList (List.replicate (most - a).toNat ' ')

/-- A laid-out column: its width, its header and its cells, all taking that room. -/
structure Column where
  width : Nat
  header : String
  cells : List String

/-- Lays out one column of a header and cells. -/
def column (header : String) (cells : List Cell) : Column :=
  let k := columnKind cells
  let texts := cells.map (Cell.render k)
  let texts := if k.numeric then alignDecimal texts else texts.map trim
  let width := texts.foldl (fun w s => max w (visibleWidth s)) (visibleWidth header + 2)
  if k.numeric then ⟨width, padLeft width header, texts.map (padLeft width)⟩
  else ⟨width, padRight width header, texts.map (padRight width)⟩

/-- A row of cells between pipes. -/
def line (cells : List String) : String := "| " ++ " | ".intercalate cells ++ " |"

/-- The pipe table of headers and rows (each row as long as the headers), without a final
newline. -/
def render (headers : List String) (rows : List (List Cell)) : String :=
  let columns := headers.zipIdx.map fun (h, i) => column h (rows.map fun (r : List Cell) => r.getD i (.text ""))
  let rule := "|" ++ "|".intercalate (columns.map fun c => String.ofList (List.replicate (c.width + 2) '-')) ++ "|"
  let body := (List.range rows.length).map fun r => line (columns.map fun c => c.cells.getD r "")
  "\n".intercalate (line (columns.map (·.header)) :: rule :: body)

end OnnxFusion.Table
