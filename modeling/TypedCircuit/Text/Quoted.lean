import TypedCircuit.Text.Unprintable

/-!
# Quoted text

Messages show a piece of text between double quotes, with a backslash before a double
quote and before a backslash, short escapes for the four common control characters, and
`\u` with the code point in braces for every other character that has no printed form.
Everything else stands for itself, so short names read as they were written.
-/

namespace TypedCircuit.Text

/-- The escape that shows a character by its code point in lowercase hexadecimal. -/
def codePointEscape (c : Char) : String :=
  "\\u\x7b" ++ String.ofList (Nat.toDigits 16 c.toNat) ++ "\x7d"

/-- One character of a quoted text. -/
def quotedChar (c : Char) : String :=
  if c = '"' then "\\\""
  else if c = '\\' then "\\\\"
  else if c = '\t' then "\\t"
  else if c = '\n' then "\\n"
  else if c = '\r' then "\\r"
  else if c.toNat = 0 then "\\0"
  else if c.toNat < 0x20 then codePointEscape c
  else if c.toNat < 0x7F then c.toString
  else if isUnprintable c.toNat then codePointEscape c
  else c.toString

/-- The text between double quotes, escaped. -/
def quoted (s : String) : String :=
  "\"" ++ s.foldl (fun out c => out ++ quotedChar c) "" ++ "\""

/-- Texts one after another, separated by a comma and a blank. -/
def commaSeparated (parts : List String) : String := ", ".intercalate parts

/-- The first characters of a text, at most `n` of them. -/
def firstChars (n : Nat) (s : String) : String := String.ofList (s.toList.take n)

/-- Blanks before a text up to `width` characters. -/
def padLeft (width : Nat) (s : String) : String :=
  "".pushn ' ' (width - s.length) ++ s

/-- Blanks after a text up to `width` characters. -/
def padRight (width : Nat) (s : String) : String :=
  s.pushn ' ' (width - s.length)

end TypedCircuit.Text
