import Mathlib.Tactic.SplitIfs
import TypedCircuit.Json.Parser
import TypedCircuit.Json.Printer
import TypedCircuit.Proofs.Literals

/-!
# Numbers and strings are read as they were written

The reader takes a number as far as it goes, so a written number is read again wherever it is
followed by something that cannot belong to a number. Only integers are treated here: their text is
a sign and digits without a leading zero, and it is read exactly if 64 bits hold the integer.

A written string ends at its first bare quote, because the writer escapes every quote inside. It is
read character by character; each character was written as itself or as an escape, and one step of
the reader takes back what the writer wrote for it.

## Main results

* `JsonReader.number_digits` — the digits of an integer are read as the integer.
* `JsonReader.stringLiteral_text` — the text of a string is read as the string.
-/

namespace TypedCircuit

namespace JsonReader

variable {rest : List Char}

/-! ## Numbers -/

/-- What may follow a number: nothing that could belong to it. -/
def Ends (rest : List Char) : Prop :=
  ∀ c ∈ rest.head?, c.isDigit = false ∧ c ≠ '.' ∧ c ≠ 'e' ∧ c ≠ 'E'

theorem ends_nil : Ends [] := nofun

/-- Digits are taken up to the first character that is none. -/
theorem digitsNumber_append {digits : List Char} (hDigits : ∀ c ∈ digits, c.isDigit = true)
    (hEnds : Ends rest) (n count : Nat) :
    digitsNumber n count (digits ++ rest) =
      ((digits.foldl (fun n c => 10 * n + (c.toNat - '0'.toNat)) n, count + digits.length),
        rest) := by
  induction digits generalizing n count with
  | nil =>
      cases rest with
      | nil => rfl
      | cons c cs =>
          have hDigit : digit? c = none := by
            rw [digit?, (hEnds c rfl).1]
            rfl
          rw [List.nil_append, digitsNumber, hDigit]
          rfl
  | cons c digits ih =>
      obtain ⟨hHead, hTail⟩ := List.forall_mem_cons.1 hDigits
      have hDigit : digit? c = some (c.toNat - '0'.toNat) := if_pos hHead
      rw [List.cons_append, digitsNumber, hDigit]
      dsimp only
      rw [ih hTail, List.foldl_cons, List.length_cons, Nat.add_assoc, Nat.add_comm 1]

/-- The digits of a number begin with a zero only if there is nothing else. -/
theorem toDigits_head (n : Nat) :
    ∃ c cs, Nat.toDigits 10 n = c :: cs ∧ (c = '0' → cs = []) := by
  induction n using Nat.strongRecOn with
  | ind n ih =>
      by_cases h : n < 10
      · exact ⟨_, _, Nat.toDigits_of_lt_base h, fun _ => rfl⟩
      · obtain ⟨c, cs, hDigits, hZero⟩ := ih (n / 10) (by omega)
        rw [Nat.toDigits_of_base_le (by decide) (by omega), hDigits]
        refine ⟨c, _, rfl, fun hc => ?_⟩
        -- A zero alone is the number zero, and the front of a longer number is not zero.
        have hValue := foldl_toDigits (n / 10)
        rw [hDigits, hZero hc, hc] at hValue
        have hNone : n / 10 = 0 := hValue.symm
        omega

/-- Digits that something else follows make a whole number. -/
theorem number_digits {negative : Bool} {n : Nat} {x : JsonNumber} (hEnds : Ends rest)
    (hWhole : wholeNumber negative n = some x) :
    number negative (Nat.toDigits 10 n ++ rest) = some (x, rest) := by
  have hRead := digitsNumber_append (isDigit_of_mem (n := n)) hEnds 0 0
  rw [foldl_toDigits] at hRead
  have hFraction : fractionPart n rest = some (none, rest) := by
    cases rest with
    | nil => rfl
    | cons c cs =>
        rw [fractionPart]
        rintro cs' ⟨⟩
        exact (hEnds '.' rfl).2.1 rfl
  have hExponent : exponentPart rest = some (none, rest) := by
    cases rest with
    | nil => rfl
    | cons c cs =>
        obtain ⟨-, -, he, hE⟩ := hEnds c rfl
        unfold exponentPart
        exact if_neg (not_or.2 ⟨he, hE⟩)
  obtain ⟨c, cs, hDigits, hZero⟩ := toDigits_head n
  have hFirst : c.isDigit = true := isDigit_of_mem c (hDigits ▸ List.mem_cons_self)
  rw [hDigits, List.cons_append] at hRead ⊢
  unfold number
  split
  · next d _ hEq =>
      -- After a zero at the head comes what follows the number, and that is no digit.
      obtain ⟨rfl, hTail⟩ := List.cons.inj hEq
      rw [hZero rfl, List.nil_append] at hTail
      have hLeading : d.isDigit = false := (hEnds d (by rw [hTail]; rfl)).1
      simp only [hLeading, List.head?_cons, hRead, hFraction, hExponent, hWhole, hFirst,
        Option.bind_eq_bind, Option.bind_some]
      rfl
  · simp only [List.head?_cons, hRead, hFraction, hExponent, hWhole, hFirst,
      Option.bind_eq_bind, Option.bind_some]
    rfl

/-! ## Strings -/

theorem hexDigit?_digitChar : ∀ d < 16, hexDigit? (Nat.digitChar d) = some d := by decide

/-- A control character is escaped by four digits, of which the first two are zero. -/
theorem controlEscape_toList (c : Char) (h : c.toNat < 32) :
    (Json.controlEscape c).toList =
      ['\\', 'u', '0', '0', Nat.digitChar (c.toNat / 16), Nat.digitChar (c.toNat % 16)] := by
  have hAll : ∀ n < 32, (Json.controlEscape (Char.ofNat n)).toList =
      ['\\', 'u', '0', '0', Nat.digitChar (n / 16), Nat.digitChar (n % 16)] := by decide
  have hSelf := hAll c.toNat h
  rwa [Char.ofNat_toNat] at hSelf

/-- The escape of a control character is read as the character. -/
theorem unicodeEscape_control (c : Char) (h : c.toNat < 32) (cs : List Char) :
    unicodeEscape ('0' :: '0' :: Nat.digitChar (c.toNat / 16) ::
      Nat.digitChar (c.toNat % 16) :: cs) = some (c, cs) := by
  have hUnit : unit16 ('0' :: '0' :: Nat.digitChar (c.toNat / 16) ::
      Nat.digitChar (c.toNat % 16) :: cs) = some (c.toNat, cs) := by
    have hZero : hexDigit? '0' = some 0 := rfl
    have hValue : (0 * 16 + 0) * 256 + c.toNat / 16 * 16 + c.toNat % 16 = c.toNat := by omega
    simp only [unit16, hZero, hexDigit?_digitChar _ (show c.toNat / 16 < 16 by omega),
      hexDigit?_digitChar _ (show c.toNat % 16 < 16 by omega), Option.bind_eq_bind,
      Option.bind_some, hValue]
    rfl
  unfold unicodeEscape
  rw [hUnit, Option.bind_eq_bind, Option.bind_some]
  dsimp only
  rw [if_neg (by omega), if_neg (by omega), Char.ofNat_toNat]

/-- An escape by number stands for the character of the number. -/
theorem stringBody_unicode {cs : List Char} {d : Char} (h : unicodeEscape cs = some (d, rest))
    (fuel : Nat) (out : String) :
    stringBody (fuel + 1) out ('\\' :: 'u' :: cs) = stringBody fuel (out.push d) rest := by
  rw [stringBody.eq_def]
  simp only [h, if_neg (show '\\' ≠ '"' by decide), if_pos]

/-- One step takes back what was written for a character. -/
theorem stringBody_escapedChar (fuel : Nat) (out : String) (c : Char) (cs : List Char) :
    stringBody (fuel + 1) out ((Json.escapedChar c).toList ++ cs) =
      stringBody fuel (out.push c) cs := by
  unfold Json.escapedChar
  split_ifs with hQuote hBackslash hNewline hReturn hTab hBack hForm hControl
  · subst hQuote; rfl
  · subst hBackslash; rfl
  · subst hNewline; rfl
  · subst hReturn; rfl
  · subst hTab; rfl
  · rw [← Char.ofNat_toNat c, hBack]; rfl
  · rw [← Char.ofNat_toNat c, hForm]; rfl
  · rw [controlEscape_toList c hControl]
    exact stringBody_unicode (unicodeEscape_control c hControl cs) fuel out
  · rw [Char.toString_eq_singleton, String.toList_singleton, List.singleton_append,
      stringBody.eq_def]
    show (if c = '"' then _ else if c = '\\' then _ else if c.toNat < 0x20 then _ else _) = _
    rw [if_neg hQuote, if_neg hBackslash, if_neg hControl]

/-- The characters of a string as they stand between its quotes. -/
def written (s : String) : List Char := s.toList.flatMap fun c => (Json.escapedChar c).toList

/-- A text is its characters between quotes. -/
theorem stringText_toList (s : String) :
    (Json.stringText s).toList = '"' :: (written s ++ ['"']) := by
  have hFold (cs : List Char) (out : String) :
      (cs.foldl (fun out c => out ++ Json.escapedChar c) out).toList =
        out.toList ++ cs.flatMap fun c => (Json.escapedChar c).toList := by
    induction cs generalizing out with
    | nil => exact (List.append_nil _).symm
    | cons c cs ih =>
        rw [List.foldl_cons, ih, String.toList_append, List.flatMap_cons, List.append_assoc]
  rw [Json.stringText, String.foldl_eq_foldl_toList, String.toList_append, hFold]
  rfl

/-- Something is written for every character: otherwise the reader could not take it back. -/
theorem escapedChar_ne_nil (c : Char) : (Json.escapedChar c).toList ≠ [] := by
  intro hNil
  have hStep := stringBody_escapedChar 1 "" c ['"']
  rw [hNil] at hStep
  have hEmpty : some ("", []) = some ("".push c, []) := hStep
  have hPush : "".toList = "".toList ++ [c] := by
    rw [← String.toList_push, ← (Prod.mk.inj (Option.some.inj hEmpty)).1]
  exact absurd hPush nofun

/-- A text is longer than what stands between its quotes. -/
theorem length_lt_stringText (s : String) : s.length + 1 < (Json.stringText s).toList.length := by
  have hWritten (cs : List Char) :
      cs.length ≤ (cs.flatMap fun c => (Json.escapedChar c).toList).length := by
    induction cs with
    | nil => exact Nat.le_refl 0
    | cons c cs ih =>
        have hOne := List.length_pos_iff.2 (escapedChar_ne_nil c)
        rw [List.flatMap_cons, List.length_append, List.length_cons]
        omega
  have hLength := hWritten s.toList
  rw [String.length_toList] at hLength
  rw [stringText_toList, List.length_cons, List.length_append, List.length_singleton, written]
  omega

/-- What was written for characters is read as the characters, one step for each. -/
theorem stringBody_flatMap (cs : List Char) {fuel : Nat} (h : cs.length < fuel) (out : String) :
    stringBody fuel out ((cs.flatMap fun c => (Json.escapedChar c).toList) ++ '"' :: rest) =
      some (out ++ String.ofList cs, rest) := by
  induction cs generalizing fuel out with
  | nil =>
      obtain ⟨fuel, rfl⟩ := Nat.exists_eq_succ_of_ne_zero (Nat.ne_of_gt h)
      rw [String.ofList_nil, String.append_empty]
      rfl
  | cons c cs ih =>
      obtain ⟨fuel, rfl⟩ := Nat.exists_eq_succ_of_ne_zero (Nat.ne_of_gt (Nat.zero_lt_of_lt h))
      rw [List.flatMap_cons, List.append_assoc, stringBody_escapedChar,
        ih (Nat.lt_of_succ_lt_succ h), String.push_eq_append, String.append_assoc,
        ← String.ofList_cons]

/-- The text of a string is read as the string, whatever follows it. -/
theorem stringLiteral_text (s : String) {fuel : Nat} (h : s.length < fuel) :
    stringLiteral fuel ((Json.stringText s).toList ++ rest) = some (s, rest) := by
  rw [stringText_toList, List.cons_append, List.append_assoc]
  show stringBody fuel "" (written s ++ '"' :: rest) = _
  rw [written, stringBody_flatMap _ (by rwa [String.length_toList]), String.empty_append,
    String.ofList_toList]

end JsonReader

end TypedCircuit
