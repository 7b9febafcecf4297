import TypedCircuit.Element

/-!
# Literals

An element is written as the decimal digits of its number, and a literal is read strictly. What
is written is read again: the digits of a number below the modulus form a word, no sign stands
before them, and the word is its own residue.

## Main results

* `Element.parse_text` — the text of an element is read as the element.
-/

namespace TypedCircuit

/-! ## Decimal digits -/

theorem isDigit_of_mem {n : Nat} : ∀ c ∈ Nat.toDigits 10 n, c.isDigit = true := fun _ hc =>
  Nat.isDigit_of_mem_toDigits (b := 10) (by decide) (by decide) hc

/-- The digits of a number are its value. -/
theorem foldl_toDigits (n : Nat) :
    (Nat.toDigits 10 n).foldl (fun n c => 10 * n + (c.toNat - '0'.toNat)) 0 = n := by
  rw [← Nat.ofDigitChars_eq_foldl]
  exact Nat.ofDigitChars_toDigits (by decide) (by decide)

/-! ## Literals -/

namespace Element

/-- The digits of a number are read as the number. -/
theorem digitsValue?_toDigits (n : Nat) : digitsValue? (Nat.toDigits 10 n) = some n := by
  have hDigits : (Nat.toDigits 10 n).all Char.isDigit = true := List.all_eq_true.2 isDigit_of_mem
  have hValue := foldl_toDigits n
  cases hList : Nat.toDigits 10 n with
  | nil => exact absurd hList Nat.toDigits_ne_nil
  | cons c cs =>
      rw [hList] at hDigits hValue
      rw [digitsValue?, if_pos hDigits, hValue]
      exact nofun

/-- The digits of a number do not begin with a sign. -/
theorem toDigits_ne_plus (n : Nat) (cs : List Char) : Nat.toDigits 10 n ≠ '+' :: cs := by
  intro hList
  have hPlus : '+' ∈ Nat.toDigits 10 n := by rw [hList]; exact List.mem_cons_self
  exact absurd (isDigit_of_mem '+' hPlus) (by decide)

/-- A number below the bound of words is read as a word. -/
theorem word?_toString {n : Nat} (h : n < wordBound) : word? (toString n) = some n := by
  unfold word?
  rw [Nat.toString_eq_ofList_toDigits, String.toList_ofList]
  dsimp only
  split
  · next cs hList => exact absurd hList (toDigits_ne_plus n cs)
  · rw [digitsValue?_toDigits]
    exact if_pos (decide_eq_true h)

/-- The text of an element is read as the element. -/
theorem parse_text (x : Element) : parse x.text = .ok x := by
  have hWord : x.toNat < wordBound := Nat.lt_trans x.toNat_lt (by decide)
  unfold parse text
  rw [word?_toString hWord]
  exact dif_pos x.toNat_lt

end Element

end TypedCircuit
