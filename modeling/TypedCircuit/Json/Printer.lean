import TypedCircuit.Binary64.Shortest
import TypedCircuit.Json.Basic
import TypedCircuit.Text.Quoted

/-!
# Texts of JSON values

A value has three texts:

* `compact` — one line without blanks;
* `pretty` — one item or member a line, two blanks of indentation a level, and the
  empty containers closed up;
* `described` — the form shown in messages, which names the kind of every part.

All of them write the members of an object in the stored order, which is ascending.
-/

namespace TypedCircuit

/-- The exact text of a number. -/
def JsonNumber.text : JsonNumber → String
  | .integer value => toString value
  | .float value => value.text

namespace Json

/-! ## Strings -/

/-- The escape of a control character: four hexadecimal digits. -/
def controlEscape (c : Char) : String :=
  let digits := String.ofList (Nat.toDigits 16 c.toNat)
  "\\u" ++ "".pushn '0' (4 - digits.length) ++ digits

/-- One character inside a string. Only the quote, the backslash and the control
characters are escaped. -/
def escapedChar (c : Char) : String :=
  if c = '"' then "\\\""
  else if c = '\\' then "\\\\"
  else if c = '\n' then "\\n"
  else if c = '\r' then "\\r"
  else if c = '\t' then "\\t"
  else if c.toNat = 8 then "\\b"
  else if c.toNat = 12 then "\\f"
  else if c.toNat < 0x20 then controlEscape c
  else c.toString

/-- A string literal. -/
def stringText (s : String) : String :=
  s.foldl (fun out c => out ++ escapedChar c) "\"" ++ "\""

/-! ## One line -/

mutual

/-- Appends the one-line text of a value. -/
def write (out : String) : Json → String
  | .null => out ++ "null"
  | .bool value => out ++ (if value then "true" else "false")
  | .number value => out ++ value.text
  | .string value => out ++ stringText value
  | .array items => writeItems (out ++ "[") "" items ++ "]"
  | .object members => writeMembers (out ++ "\x7b") "" members ++ "\x7d"

/-- Appends items, each after a separator. -/
def writeItems (out separator : String) : List Json → String
  | [] => out
  | item :: items => writeItems (write (out ++ separator) item) "," items

/-- Appends members, each after a separator. -/
def writeMembers (out separator : String) : List (String × Json) → String
  | [] => out
  | (key, value) :: members =>
    writeMembers (write (out ++ separator ++ stringText key ++ ":") value) "," members

end

/-- The text without blanks. -/
def compact (json : Json) : String := write "" json

/-! ## Indented -/

mutual

/-- Appends the indented text of a value that stands at the given indentation. -/
def writePretty (indent out : String) : Json → String
  | .null => out ++ "null"
  | .bool value => out ++ (if value then "true" else "false")
  | .number value => out ++ value.text
  | .string value => out ++ stringText value
  | .array [] => out ++ "[]"
  | .array items =>
    writePrettyItems (indent ++ "  ") (out ++ "[") "\n" items ++ "\n" ++ indent ++ "]"
  | .object [] => out ++ "\x7b\x7d"
  | .object members =>
    writePrettyMembers (indent ++ "  ") (out ++ "\x7b") "\n" members ++ "\n" ++ indent ++ "\x7d"

/-- Appends items, each on its own line. -/
def writePrettyItems (indent out separator : String) : List Json → String
  | [] => out
  | item :: items =>
    writePrettyItems indent (writePretty indent (out ++ separator ++ indent) item) ",\n" items

/-- Appends members, each on its own line. -/
def writePrettyMembers (indent out separator : String) : List (String × Json) → String
  | [] => out
  | (key, value) :: members =>
    writePrettyMembers indent
      (writePretty indent (out ++ separator ++ indent ++ stringText key ++ ": ") value)
      ",\n" members

end

/-- The indented text. -/
def pretty (json : Json) : String := writePretty "" "" json

/-! ## In messages -/

mutual

/-- The text that names the kind of every part. -/
def described : Json → String
  | .null => "Null"
  | .bool value => "Bool(" ++ (if value then "true" else "false") ++ ")"
  | .number value => "Number(" ++ value.text ++ ")"
  | .string value => "String(" ++ Text.quoted value ++ ")"
  | .array items => "Array [" ++ Text.commaSeparated (describedItems items) ++ "]"
  | .object members =>
    "Object \x7b" ++ Text.commaSeparated (describedMembers members) ++ "\x7d"

/-- The texts of items. -/
def describedItems : List Json → List String
  | [] => []
  | item :: items => described item :: describedItems items

/-- The texts of members, each with its quoted key. -/
def describedMembers : List (String × Json) → List String
  | [] => []
  | (key, value) :: members =>
    (Text.quoted key ++ ": " ++ described value) :: describedMembers members

end

end Json

end TypedCircuit
