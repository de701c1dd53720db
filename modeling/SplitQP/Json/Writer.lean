import SplitQP.Json.Text
import SplitQP.Json.Numeral
/-!
# Writing JSON

Values are written without blanks, the fields of a record in the order
declared.
-/

namespace SplitQP

namespace JsonWriter

/-- Texts with commas between them. -/
def commas : List (List Char) → List Char
  | [] => []
  | [t] => t
  | t :: ts => t ++ ',' :: commas ts

/-- A list. -/
def list (items : List (List Char)) : List Char := '[' :: commas items ++ [']']

/-- A record. -/
def record (fields : List (String × List Char)) : List Char :=
  '{' :: commas (fields.map fun (name, value) => JsonText.write name ++ ':' :: value) ++ ['}']

/-- A switch. -/
def bool (b : Bool) : List Char := (if b then "true" else "false").toList

/-- An array of doubles. -/
def floats (xs : Array Float) : List Char := list (xs.toList.map Numeral.write)

/-- An array of integers. -/
def ints (xs : Array Int) : List Char := list (xs.toList.map Numeral.writeInt)

/-- An array of strings. -/
def strings (xs : Array String) : List Char := list (xs.toList.map JsonText.write)

end JsonWriter

end SplitQP
