import Mathlib.Data.List.Induction
import Mathlib.Data.Nat.Digits.Defs
import Mathlib.Data.Set.List
import TypedCircuit.Proofs.Literals

/-!
# What literals spell

A literal is at most one plus sign and then one or more decimal digits. `Spells` says so, with the
number that the digits stand for. Zeros may stand in front, so a number has many literals; a literal
has one number.

Reading a literal has two borders. A number that does not fit a word is not read at all, like a text
that is no literal; a number that fits a word and is not below the modulus is read and refused. So
no number is ever reduced, and what is read is exactly what is spelled.

## Main results

* `Spells.unique` — a text spells at most one number.
* `Element.digitsValue?_eq_some_iff`, `Element.word?_eq_some_iff` — what is read from digits, and
  from digits after a sign.
* `Element.parse_spells` — which literals are read, which are refused and which are malformed.
-/

namespace TypedCircuit

/-! ## Decimal numbers -/

/-- The character of a decimal digit. -/
def digitCharacter (d : Fin 10) : Char := Nat.digitChar d

/-- The number that decimal digits stand for, the most significant one first. -/
def decimal (digits : List (Fin 10)) : Nat := Nat.ofDigits 10 (digits.map Fin.val).reverse

/-- One or more decimal digits with their number. -/
def IsDecimal (cs : List Char) (n : Nat) : Prop :=
  ∃ digits : List (Fin 10), digits ≠ [] ∧ cs = digits.map digitCharacter ∧ decimal digits = n

/-- A text is decimal digits with their number, or a single plus sign and then such digits. -/
def Spells (s : String) (n : Nat) : Prop :=
  IsDecimal s.toList n ∨ ∃ cs, s.toList = '+' :: cs ∧ IsDecimal cs n

theorem isDigit_digitCharacter : ∀ d : Fin 10, (digitCharacter d).isDigit = true := by decide

theorem toNat_digitCharacter : ∀ d : Fin 10, (digitCharacter d).toNat - '0'.toNat = d := by decide

theorem digitCharacter_ne_plus : ∀ d : Fin 10, digitCharacter d ≠ '+' := by decide

/-- The characters that count as digits are those of the ten digits. -/
theorem isDigit_iff {c : Char} : c.isDigit = true ↔ c ∈ Set.range digitCharacter := by
  constructor
  · intro h
    have hRange : 48 ≤ c.toNat ∧ c.toNat ≤ 57 := Char.isDigit_iff_toNat.1 h
    have hDigit : c.toNat - 48 < 10 := by omega
    refine ⟨⟨c.toNat - 48, hDigit⟩, Char.toNat_inj.1 ?_⟩
    show (Nat.digitChar (c.toNat - 48)).toNat = c.toNat
    rw [Nat.toNat_digitChar_of_lt_ten hDigit]
    omega
  · rintro ⟨d, rfl⟩
    exact isDigit_digitCharacter d

theorem exists_digits {cs : List Char} (h : cs.all Char.isDigit = true) :
    ∃ digits : List (Fin 10), digits.map digitCharacter = cs := by
  have hRange : ∀ c ∈ cs, c ∈ Set.range digitCharacter := by
    intro c hc
    exact isDigit_iff.1 (List.all_eq_true.1 h c hc)
  exact (Set.range_list_map digitCharacter).symm.subset hRange

theorem not_isDecimal_plus (cs : List Char) (n : Nat) : ¬ IsDecimal ('+' :: cs) n := by
  rintro ⟨digits, -, hChars, -⟩
  have hPlus : '+' ∈ digits.map digitCharacter := hChars ▸ List.mem_cons_self
  obtain ⟨d, -, hd⟩ := List.mem_map.1 hPlus
  exact digitCharacter_ne_plus d hd

/-- One more digit on the right. -/
theorem decimal_append (digits : List (Fin 10)) (d : Fin 10) :
    decimal (digits ++ [d]) = 10 * decimal digits + d := by
  rw [decimal, List.map_append, List.reverse_append]
  exact Nat.ofDigits_cons.trans (Nat.add_comm _ _)

/-- Taking in one digit after another gives the number that the digits stand for. -/
theorem foldl_digits (digits : List (Fin 10)) :
    (digits.map digitCharacter).foldl (fun n c => 10 * n + (c.toNat - '0'.toNat)) 0 =
      decimal digits := by
  -- The last digit read is the least one, so the lists of digits grow on the right.
  induction digits using List.reverseRecOn with
  | nil => rfl
  | append_singleton digits d ih =>
      rw [List.map_append, List.foldl_append, ih, decimal_append]
      exact congrArg (10 * decimal digits + ·) (toNat_digitCharacter d)

namespace Element

/-! ## Reading a word -/

theorem digitsValue?_cons (c : Char) (cs : List Char) :
    digitsValue? (c :: cs) =
      if (c :: cs).all Char.isDigit then
        some ((c :: cs).foldl (fun n c => 10 * n + (c.toNat - '0'.toNat)) 0)
      else none := rfl

theorem digitsValue?_digits {digits : List (Fin 10)} (h : digits ≠ []) :
    digitsValue? (digits.map digitCharacter) = some (decimal digits) := by
  have hAll : (digits.map digitCharacter).all Char.isDigit = true := by
    simp [isDigit_digitCharacter]
  have hValue := foldl_digits digits
  cases hChars : digits.map digitCharacter with
  | nil => exact absurd (List.map_eq_nil_iff.1 hChars) h
  | cons c cs =>
      rw [hChars] at hAll hValue
      rw [digitsValue?_cons, if_pos hAll, hValue]

/-- A number is read from characters if and only if they are digits of the number. -/
theorem digitsValue?_eq_some_iff {cs : List Char} {n : Nat} :
    digitsValue? cs = some n ↔ IsDecimal cs n := by
  constructor
  · intro h
    cases cs with
    | nil => cases h
    | cons c cs =>
        by_cases hAll : (c :: cs).all Char.isDigit = true
        · obtain ⟨digits, hDigits⟩ := exists_digits hAll
          have hNonempty : digits ≠ [] := by
            intro hEmpty
            subst hEmpty
            cases hDigits
          rw [← hDigits, digitsValue?_digits hNonempty] at h
          exact ⟨digits, hNonempty, hDigits.symm, Option.some.inj h⟩
        · rw [digitsValue?_cons, if_neg hAll] at h
          cases h
  · rintro ⟨digits, hNonempty, rfl, rfl⟩
    exact digitsValue?_digits hNonempty

/-- A word is read from a text if and only if the text spells it. -/
theorem word?_eq_some_iff {s : String} {n : Nat} :
    word? s = some n ↔ Spells s n ∧ n < wordBound := by
  unfold word? Spells
  rw [Option.filter_eq_some_iff, digitsValue?_eq_some_iff, decide_eq_true_iff]
  apply and_congr_left'
  split
  · next cs hSigned =>
      rw [hSigned, or_iff_right (not_isDecimal_plus cs n)]
      simp
  · next hPlain =>
      apply (or_iff_left ?_).symm
      rintro ⟨cs, hSigned, -⟩
      exact hPlain cs hSigned

end Element

theorem IsDecimal.unique {cs : List Char} {m n : Nat} (hm : IsDecimal cs m) (hn : IsDecimal cs n) :
    m = n := by
  rw [← Element.digitsValue?_eq_some_iff] at hm hn
  exact Option.some.inj (hm.symm.trans hn)

/-- A text spells at most one number. -/
theorem Spells.unique {s : String} {m n : Nat} (hm : Spells s m) (hn : Spells s n) : m = n := by
  rcases hm with hm | ⟨cs, hSigned, hm⟩
  · rcases hn with hn | ⟨cs, hSigned, -⟩
    · exact hm.unique hn
    · exact absurd (hSigned ▸ hm) (not_isDecimal_plus cs m)
  · rcases hn with hn | ⟨cs', hSigned', hn⟩
    · exact absurd (hSigned ▸ hn) (not_isDecimal_plus cs n)
    · cases hSigned.symm.trans hSigned'
      exact hm.unique hn

namespace Element

/-! ## Reading an element -/

theorem parse_of_none {s : String} (h : word? s = none) : parse s = .error .malformed := by
  rw [parse, h]

theorem parse_of_some {s : String} {n : Nat} (h : word? s = some n) :
    parse s = if h : n < modulus then .ok ⟨n, h⟩ else .error .notCanonical := by
  rw [parse, h]

theorem parse_eq_ok_iff {s : String} {x : Element} : parse s = .ok x ↔ word? s = some x.toNat := by
  have hx := x.toNat_lt
  cases hWord : word? s with
  | none => simp [parse_of_none hWord]
  | some n =>
      rw [parse_of_some hWord]
      split
      · simp [Element.ext_iff]
      · simp
        omega

theorem parse_eq_notCanonical_iff {s : String} :
    parse s = .error .notCanonical ↔ ∃ n, word? s = some n ∧ modulus ≤ n := by
  cases hWord : word? s with
  | none => simp [parse_of_none hWord]
  | some n =>
      rw [parse_of_some hWord]
      split
      · simp
        omega
      · simp
        omega

theorem parse_eq_malformed_iff {s : String} : parse s = .error .malformed ↔ word? s = none := by
  cases hWord : word? s with
  | none => simp [parse_of_none hWord]
  | some n =>
      rw [parse_of_some hWord]
      split
      · simp
      · simp

/-- A text that spells a number below the modulus is read as that number; one that spells a word
which is not below the modulus is refused; every other text is malformed. What is written for an
element is read as the element. -/
theorem parse_spells (s : String) :
    (∀ x, parse s = .ok x ↔ ∃ n, Spells s n ∧ n < modulus ∧ x.toNat = n) ∧
      (parse s = .error .notCanonical ↔ ∃ n, Spells s n ∧ modulus ≤ n ∧ n < wordBound) ∧
      (parse s = .error .malformed ↔ ¬ ∃ n, Spells s n ∧ n < wordBound) ∧
      ∀ x : Element, parse x.text = .ok x := by
  refine ⟨fun x => ?_, ?_, ?_, parse_text⟩
  · have hx := x.toNat_lt
    have hWord : x.toNat < wordBound := Nat.lt_trans hx (by decide)
    rw [parse_eq_ok_iff, word?_eq_some_iff, and_iff_left hWord]
    constructor
    · intro h
      exact ⟨x.toNat, h, hx, rfl⟩
    · rintro ⟨n, h, -, rfl⟩
      exact h
  · simp only [parse_eq_notCanonical_iff, word?_eq_some_iff, and_assoc, and_comm]
  · simp only [parse_eq_malformed_iff, Option.eq_none_iff_forall_ne_some, ne_eq,
      word?_eq_some_iff, not_exists]

/-- The first number that is refused, the last one that is, and the first one that is no word. -/
example : parse "+00018446744069414584321" = .error .notCanonical ∧
    parse "18446744073709551615" = .error .notCanonical ∧
    parse "18446744073709551616" = .error .malformed := by decide

end Element

end TypedCircuit
