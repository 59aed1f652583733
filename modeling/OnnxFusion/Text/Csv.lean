/-!
# Comma-separated values

A row is its fields joined by commas and ended by a newline. A field is quoted when it holds
a comma, a double quote or a newline (a carriage return alone is written as it is); inside
quotes a double quote is doubled.
-/

set_option autoImplicit false

namespace OnnxFusion.Csv

/-- Whether a field must be quoted. -/
def needsQuotes (s : String) : Bool := s.any fun c => c == ',' || c == '"' || c == '\n'

/-- A field as written. -/
def field (s : String) : String :=
  if needsQuotes s then "\"" ++ String.join (s.toList.map fun c => if c == '"' then "\"\"" else c.toString) ++ "\""
  else s

/-- A row as written, with its newline. -/
def row (fields : List String) : String := ",".intercalate (fields.map field) ++ "\n"

/-- A header and rows as written. -/
def table (header : List String) (rows : List (List String)) : String :=
  row header ++ String.join (rows.map row)

end OnnxFusion.Csv
