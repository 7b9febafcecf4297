import TypedCircuit.Json.Basic

/-!
# Reading JSON

`Json.parse` reads one value with blanks around it and nothing after it. Numbers follow
the rule of `JsonNumber`: digits alone give an integer when it fits 64 bits, with its
sign; `-0`, everything larger and every literal with a fraction or an exponent give the
binary64 number nearest to what is written. A literal past the finite numbers is refused.

The reader works on the list of characters that is left. Every value takes at least one
character, so the number of characters bounds the nesting and the number of steps; it is
the fuel of the recursion, and it never runs out.
-/

namespace TypedCircuit.JsonReader

/-- A reader: the value read and the characters left, or nothing. -/
abbrev Reader (α : Type) := List Char → Option (α × List Char)

/-- The characters after leading blanks. -/
def skipBlanks : List Char → List Char
  | [] => []
  | c :: cs => if c = ' ' ∨ c = '\n' ∨ c = '\t' ∨ c = '\r' then skipBlanks cs else c :: cs

/-- The characters after a fixed text. -/
def expect : List Char → List Char → Option (List Char)
  | [], cs => some cs
  | t :: ts, c :: cs => if t = c then expect ts cs else none
  | _ :: _, [] => none

/-! ## Numbers -/

/-- The value of a decimal digit. -/
def digit? (c : Char) : Option Nat :=
  if c.isDigit then some (c.toNat - '0'.toNat) else none

/-- The number of 64-bit words, `2 ^ 64`. -/
def wordCount : Nat := 0x10000000000000000

/-- The number written after `n` by digits, and how many they are. -/
def digitsNumber (n count : Nat) : List Char → (Nat × Nat) × List Char
  | [] => ((n, count), [])
  | c :: cs =>
    match digit? c with
    | none => ((n, count), c :: cs)
    | some d => digitsNumber (10 * n + d) (count + 1) cs

/-- An exponent part, if there is one: the mark, a sign and at least one digit. -/
def exponentPart (cs : List Char) : Option (Option Int × List Char) :=
  match cs with
  | c :: rest =>
    if c = 'e' ∨ c = 'E' then
      let (negative, rest) := match rest with
        | '+' :: r => (false, r)
        | '-' :: r => (true, r)
        | r => (false, r)
      match rest with
      | d :: _ =>
        if d.isDigit then
          let ((n, _), rest) := digitsNumber 0 0 rest
          some (some (if negative then -(n : Int) else n), rest)
        else none
      | [] => none
    else some (none, cs)
  | [] => some (none, [])

/-- A fraction part, if there is one, after an integer part. Its digits continue the
number written so far; what is returned is that number and how many digits it gained. -/
def fractionPart (whole : Nat) (cs : List Char) :
    Option (Option (Nat × Nat) × List Char) :=
  match cs with
  | '.' :: rest =>
    match rest with
    | d :: _ =>
      if d.isDigit then
        let (extended, rest) := digitsNumber whole 0 rest
        some (some extended, rest)
      else none
    | [] => none
  | _ => some (none, cs)

/-- The number written by digits alone, after its sign. -/
def wholeNumber (negative : Bool) (n : Nat) : Option JsonNumber :=
  if !negative && n < wordCount then some (.integer n)
  else if negative && 0 < n && n ≤ wordCount / 2 then some (.integer (-(n : Int)))
  else (Binary64.ofDecimal n 0).map fun x => .float (x.withSign negative)

/-- A number after its sign. -/
def number (negative : Bool) (cs : List Char) : Option (JsonNumber × List Char) := do
  let leadingZero := match cs with
    | '0' :: d :: _ => d.isDigit
    | _ => false
  let first ← cs.head?
  if leadingZero || !first.isDigit then none
  else
    let ((whole, _), rest) := digitsNumber 0 0 cs
    let (fraction, rest) ← fractionPart whole rest
    let (exponent, rest) ← exponentPart rest
    if fraction.isNone && exponent.isNone then
      return (← wholeNumber negative whole, rest)
    else
      let (digits, places) := fraction.getD (whole, 0)
      let x ← Binary64.ofDecimal digits (exponent.getD 0 - places)
      return (.float (x.withSign negative), rest)

/-! ## Strings -/

/-- The value of a hexadecimal digit. -/
def hexDigit? (c : Char) : Option Nat :=
  if c.isDigit then some (c.toNat - '0'.toNat)
  else if 'a' ≤ c ∧ c ≤ 'f' then some (c.toNat - 'a'.toNat + 10)
  else if 'A' ≤ c ∧ c ≤ 'F' then some (c.toNat - 'A'.toNat + 10)
  else none

/-- Four hexadecimal digits. -/
def unit16 : Reader Nat
  | a :: b :: c :: d :: rest => do
    return (((← hexDigit? a) * 16 + (← hexDigit? b)) * 256 +
      (← hexDigit? c) * 16 + (← hexDigit? d), rest)
  | _ => none

/-- The character of an escape after its `u`: one unit, or a pair of surrogates. -/
def unicodeEscape (cs : List Char) : Option (Char × List Char) := do
  let (high, rest) ← unit16 cs
  if 0xD800 ≤ high ∧ high < 0xDC00 then
    let rest ← expect ['\\', 'u'] rest
    let (low, rest) ← unit16 rest
    if 0xDC00 ≤ low ∧ low < 0xE000 then
      some (Char.ofNat (0x10000 + (high - 0xD800) * 0x400 + (low - 0xDC00)), rest)
    else none
  else if 0xDC00 ≤ high ∧ high < 0xE000 then none
  else some (Char.ofNat high, rest)

/-- The character of a one-letter escape. -/
def simpleEscape? (c : Char) : Option Char :=
  match c with
  | '"' => some '"'
  | '\\' => some '\\'
  | '/' => some '/'
  | 'b' => some (Char.ofNat 8)
  | 'f' => some (Char.ofNat 12)
  | 'n' => some '\n'
  | 'r' => some '\r'
  | 't' => some '\t'
  | _ => none

/-- The rest of a string literal after its opening quote. -/
def stringBody : Nat → String → Reader String
  | 0, _, _ => none
  | _ + 1, _, [] => none
  | fuel + 1, out, c :: cs =>
    if c = '"' then some (out, cs)
    else if c = '\\' then
      match cs with
      | 'u' :: rest =>
        match unicodeEscape rest with
        | some (d, rest) => stringBody fuel (out.push d) rest
        | none => none
      | e :: rest =>
        match simpleEscape? e with
        | some d => stringBody fuel (out.push d) rest
        | none => none
      | [] => none
    else if c.toNat < 0x20 then none
    else stringBody fuel (out.push c) cs

/-- A string literal. -/
def stringLiteral (fuel : Nat) (cs : List Char) : Option (String × List Char) :=
  match cs with
  | '"' :: rest => stringBody fuel "" rest
  | _ => none

/-! ## Values -/

mutual

/-- One value, which starts at the first character. -/
def value : Nat → Reader Json
  | 0, _ => none
  | fuel + 1, cs =>
    match cs with
    | 'n' :: _ => (expect "null".toList cs).map (Json.null, ·)
    | 't' :: _ => (expect "true".toList cs).map (Json.bool true, ·)
    | 'f' :: _ => (expect "false".toList cs).map (Json.bool false, ·)
    | '"' :: rest => (stringBody (fuel + 1) "" rest).map fun (s, rest) => (.string s, rest)
    | '-' :: rest => (number true rest).map fun (n, rest) => (.number n, rest)
    | '[' :: rest =>
      match skipBlanks rest with
      | ']' :: rest => some (.array [], rest)
      | rest => items fuel [] rest
    | '\x7b' :: rest =>
      match skipBlanks rest with
      | '\x7d' :: rest => some (.object [], rest)
      | rest => members fuel [] rest
    | _ => (number false cs).map fun (n, rest) => (.number n, rest)

/-- The items of an array up to its closing bracket, in reverse before the ones read. -/
def items : Nat → List Json → Reader Json
  | 0, _, _ => none
  | fuel + 1, done, cs =>
    match value fuel cs with
    | none => none
    | some (item, rest) =>
      match skipBlanks rest with
      | ',' :: rest => items fuel (item :: done) (skipBlanks rest)
      | ']' :: rest => some (.array (item :: done).reverse, rest)
      | _ => none

/-- The members of an object up to its closing brace, in reverse before the ones read. -/
def members : Nat → List (String × Json) → Reader Json
  | 0, _, _ => none
  | fuel + 1, done, cs =>
    match stringLiteral (fuel + 1) cs with
    | none => none
    | some (key, rest) =>
      match skipBlanks rest with
      | ':' :: rest =>
        match value fuel (skipBlanks rest) with
        | none => none
        | some (item, rest) =>
          match skipBlanks rest with
          | ',' :: rest => members fuel ((key, item) :: done) (skipBlanks rest)
          | '\x7d' :: rest => some (Json.ofMembers ((key, item) :: done).reverse, rest)
          | _ => none
      | _ => none

end

end TypedCircuit.JsonReader

namespace TypedCircuit

open JsonReader in
/--
The value written by a text, if the text is one JSON value. It stands for what the package
`serde_json` reads, and for what `serde_yaml` reads of a document in a file.

Of these is assumed that they accept what the JSON grammar accepts and read it as described above:
the last one of equal keys counts, and every number that is no integer of 64 bits is rounded to the
nearest binary64 number. They also bound how deep values are nested, which is left out here. The
documents of gates, elements and constraint systems stay far below the bound and have no such
numbers.
-/
def Json.parse (text : String) : Option Json :=
  let cs := text.toList
  match value (cs.length + 1) (skipBlanks cs) with
  | some (json, rest) => if (skipBlanks rest).isEmpty then some json else none
  | none => none

end TypedCircuit
