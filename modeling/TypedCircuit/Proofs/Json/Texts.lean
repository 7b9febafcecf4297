import TypedCircuit.Proofs.Entries
import TypedCircuit.Proofs.Json.Scalars

/-!
# The texts of a value

A value has many texts. Blanks may stand between any two tokens, and the members of an object may
be written in any order. `Json.HasText` says which texts these are, without the reader: the forms
of a text are rules, one for each way to write a value and two for each kind of container, whose
items or members end or go on. Integers are written by their digits and strings with no more
escapes than they need; other numbers are not written here.

The reader takes every one of them and returns the value. Each rule gives one step of the reader,
and the steps are put together by induction on the text. A text is never longer than the budget
that the reader starts with, and what is written inside a container is shorter than the container.

So a text belongs to one value at most, and a writer that keeps to the rules is inverted by the
reader, whatever it does with blanks and with the order of members.

## Main results

* `Json.HasText.parse` — every text of a value is read as the value.
* `Json.HasText.unique` — a text belongs to one value.
-/

namespace TypedCircuit

namespace JsonReader

/-! ## Blanks -/

/-- The characters that may stand between two tokens. -/
def IsBlank (c : Char) : Prop := c = ' ' ∨ c = '\n' ∨ c = '\t' ∨ c = '\r'

instance : DecidablePred IsBlank := fun c =>
  inferInstanceAs (Decidable (c = ' ' ∨ c = '\n' ∨ c = '\t' ∨ c = '\r'))

/-- Nothing but blanks. -/
def Blanks (ws : List Char) : Prop := ∀ c ∈ ws, IsBlank c

theorem blanks_nil : Blanks [] := nofun

variable {ws cs rest : List Char} {c : Char}

/-- Blanks in front are skipped. -/
theorem skipBlanks_append (h : Blanks ws) (cs : List Char) :
    skipBlanks (ws ++ cs) = skipBlanks cs := by
  induction ws with
  | nil => rfl
  | cons c ws ih =>
      obtain ⟨hHead, hTail⟩ := List.forall_mem_cons.1 h
      exact (if_pos hHead).trans (ih hTail)

/-- What does not begin with a blank stays. -/
theorem skipBlanks_cons (h : ¬ IsBlank c) (cs : List Char) : skipBlanks (c :: cs) = c :: cs :=
  if_neg h

/-- Blanks and then something else: the something else is what is left. -/
theorem skipBlanks_blanks (hBlanks : Blanks ws) (h : ¬ IsBlank c) (cs : List Char) :
    skipBlanks (ws ++ c :: cs) = c :: cs := by
  rw [skipBlanks_append hBlanks, skipBlanks_cons h]

theorem skipBlanks_all (h : Blanks ws) : skipBlanks ws = [] := by
  have hSkip := skipBlanks_append h []
  rwa [List.append_nil] at hSkip

/-- A number ends where blanks or a separator follow. -/
theorem ends_blanks (hBlanks : Blanks ws) (h : Ends cs) : Ends (ws ++ cs) := by
  cases ws with
  | nil => exact h
  | cons c ws =>
      rintro _ ⟨rfl⟩
      obtain rfl | rfl | rfl | rfl := hBlanks c List.mem_cons_self <;> decide

/-! ## Words and integers -/

/-- An integer that 64 bits hold, with or without a sign. -/
def IsWord (n : Int) : Prop := -(wordCount / 2 : Nat) ≤ n ∧ n < wordCount

theorem toList_natCast (n : Nat) : (toString (n : Int)).toList = Nat.toDigits 10 n := by
  show (toString n).toList = _
  rw [Nat.toString_eq_ofList_toDigits, String.toList_ofList]

theorem toList_negSucc (n : Nat) :
    (toString (Int.negSucc n)).toList = '-' :: Nat.toDigits 10 (n + 1) := by
  show ("-" ++ toString (n + 1)).toList = _
  rw [String.toList_append, Nat.toString_eq_ofList_toDigits, String.toList_ofList,
    String.toList_ofList]
  rfl

/-- What begins with a digit is a number. -/
theorem value_digit {fuel : Nat} (h : c.isDigit = true) (cs : List Char) :
    value (fuel + 1) (c :: cs) = (number false (c :: cs)).map fun (n, rest) => (.number n, rest) := by
  unfold value
  split
  case h_8 => rfl
  -- A value that starts in any other way does not start with a digit.
  all_goals
    next hEq =>
      obtain ⟨rfl, -⟩ := List.cons.inj hEq
      exact absurd h (by decide)

/-- The text of a word is read as the word. -/
theorem value_integer {fuel : Nat} {n : Int} (h : IsWord n) (hEnds : Ends rest) :
    value (fuel + 1) ((toString n).toList ++ rest) = some (.number (.integer n), rest) := by
  cases n with
  | ofNat n =>
      have hWhole : wholeNumber false n = some (.integer n) :=
        if_pos (by simpa using Int.ofNat_lt.1 h.2)
      obtain ⟨c, cs, hDigits, -⟩ := toDigits_head n
      have hFirst : c.isDigit = true := isDigit_of_mem c (hDigits ▸ List.mem_cons_self)
      have hRead := number_digits hEnds hWhole
      rw [Int.ofNat_eq_natCast, toList_natCast]
      rw [hDigits, List.cons_append] at hRead ⊢
      rw [value_digit hFirst, hRead]
      rfl
  | negSucc n =>
      have hLower : n + 1 ≤ wordCount / 2 := by
        have := h.1
        omega
      have hWhole : wholeNumber true (n + 1) = some (.integer (Int.negSucc n)) := by
        unfold wholeNumber
        rw [if_neg (by simp), if_pos (by simpa using hLower)]
        rfl
      rw [toList_negSucc]
      show (number true (Nat.toDigits 10 (n + 1) ++ rest)).map _ = _
      rw [number_digits hEnds hWhole]
      rfl

/-! ## Brackets -/

variable {fuel : Nat}

theorem value_emptyArray (h : skipBlanks cs = ']' :: rest) :
    value (fuel + 1) ('[' :: cs) = some (.array [], rest) := by
  simp only [value, h]

theorem value_array (h : skipBlanks cs = c :: rest) (hc : c ≠ ']') :
    value (fuel + 1) ('[' :: cs) = items fuel [] (c :: rest) := by
  simp only [value, h]
  split
  · next hEq => exact absurd (List.cons.inj hEq).1 hc
  · rfl

theorem value_emptyObject (h : skipBlanks cs = '\x7d' :: rest) :
    value (fuel + 1) ('\x7b' :: cs) = some (.object [], rest) := by
  simp only [value, h]

theorem value_object (h : skipBlanks cs = c :: rest) (hc : c ≠ '\x7d') :
    value (fuel + 1) ('\x7b' :: cs) = members fuel [] (c :: rest) := by
  simp only [value, h]
  split
  · next hEq => exact absurd (List.cons.inj hEq).1 hc
  · rfl

end JsonReader

/-! ## The rules -/

open JsonReader

namespace Json

/-- What a piece of a text stands for: a value, or the part of a container that comes after its
opening bracket and the blanks behind it. -/
inductive Phrase where
  | value (json : Json)
  /-- The items of an array, at least one, and the closing bracket. -/
  | items (items : List Json)
  /-- The members of an object, at least one, and the closing brace. -/
  | members (members : List (String × Json))

/-- The characters are a text of the phrase. Each rule is a way to write it. -/
inductive Phrase.HasText : Phrase → List Char → Prop where
  | null : HasText (.value .null) "null".toList
  | bool (value : Bool) : HasText (.value (.bool value)) (if value then "true" else "false").toList
  | integer {n : Int} (h : IsWord n) :
    HasText (.value (.number (.integer n))) (toString n).toList
  | string (s : String) : HasText (.value (.string s)) (stringText s).toList
  | emptyArray {b : List Char} (hb : Blanks b) : HasText (.value (.array [])) ('[' :: (b ++ [']']))
  | array {items : List Json} {b cs : List Char} (hb : Blanks b)
    (hItems : HasText (.items items) cs) : HasText (.value (.array items)) ('[' :: (b ++ cs))
  | emptyObject {b : List Char} (hb : Blanks b) :
    HasText (.value (.object [])) ('\x7b' :: (b ++ ['\x7d']))
  /-- The members are written in any order. -/
  | object {members written : List (String × Json)} {b cs : List Char}
    (hSorted : Entries.Sorted members) (hPerm : written.Perm members) (hb : Blanks b)
    (hMembers : HasText (.members written) cs) :
    HasText (.value (.object members)) ('\x7b' :: (b ++ cs))
  | lastItem {item : Json} {cs b : List Char} (hItem : HasText (.value item) cs)
    (hb : Blanks b) : HasText (.items [item]) (cs ++ (b ++ [']']))
  | item {item : Json} {items : List Json} {cs b₁ b₂ ds : List Char}
    (hItem : HasText (.value item) cs) (h₁ : Blanks b₁) (h₂ : Blanks b₂)
    (hItems : HasText (.items items) ds) :
    HasText (.items (item :: items)) (cs ++ (b₁ ++ ',' :: (b₂ ++ ds)))
  | lastMember {key : String} {item : Json} {b₁ b₂ cs b₃ : List Char} (h₁ : Blanks b₁)
    (h₂ : Blanks b₂) (hItem : HasText (.value item) cs) (h₃ : Blanks b₃) :
    HasText (.members [(key, item)])
      ((stringText key).toList ++ (b₁ ++ ':' :: (b₂ ++ (cs ++ (b₃ ++ ['\x7d'])))))
  | member {key : String} {item : Json} {members : List (String × Json)}
    {b₁ b₂ cs b₃ b₄ ds : List Char} (h₁ : Blanks b₁) (h₂ : Blanks b₂)
    (hItem : HasText (.value item) cs) (h₃ : Blanks b₃) (h₄ : Blanks b₄)
    (hMembers : HasText (.members members) ds) :
    HasText (.members ((key, item) :: members))
      ((stringText key).toList ++ (b₁ ++ ':' :: (b₂ ++ (cs ++ (b₃ ++ ',' :: (b₄ ++ ds))))))

/-- The text is one of the value, with or without blanks around it. -/
def HasText (json : Json) (text : String) : Prop :=
  ∃ b₁ cs b₂, Blanks b₁ ∧ Phrase.HasText (.value json) cs ∧ Blanks b₂ ∧
    text.toList = b₁ ++ (cs ++ b₂)

/-- A text begins with something that is no blank and closes nothing. -/
theorem Phrase.HasText.head {phrase : Phrase} {cs : List Char} (h : phrase.HasText cs) :
    ∃ c ds, cs = c :: ds ∧ ¬ IsBlank c ∧ c ≠ ']' ∧ c ≠ '\x7d' := by
  have hFront {c : Char} {cs : List Char} (ds : List Char) (hCs : cs = c :: ds) (es : List Char)
      (h : ¬ IsBlank c ∧ c ≠ ']' ∧ c ≠ '\x7d') :
      ∃ c ds, cs ++ es = c :: ds ∧ ¬ IsBlank c ∧ c ≠ ']' ∧ c ≠ '\x7d' :=
    ⟨c, ds ++ es, by rw [hCs, List.cons_append], h⟩
  induction h with
  | null => exact ⟨'n', _, rfl, by decide⟩
  | bool value => cases value <;> exact ⟨_, _, rfl, by decide⟩
  | @integer n h =>
      cases n with
      | ofNat n =>
          obtain ⟨c, ds, hDigits, -⟩ := toDigits_head n
          have hDigit : c.isDigit = true := isDigit_of_mem c (hDigits ▸ List.mem_cons_self)
          refine ⟨c, ds, (toList_natCast n).trans hDigits, ?_, ?_, ?_⟩
          · rintro (rfl | rfl | rfl | rfl) <;> exact absurd hDigit (by decide)
          · rintro rfl
            exact absurd hDigit (by decide)
          · rintro rfl
            exact absurd hDigit (by decide)
      | negSucc n => exact ⟨'-', _, toList_negSucc n, by decide⟩
  | string s => exact ⟨'"', _, stringText_toList s, by decide⟩
  | emptyArray | array => exact ⟨'[', _, rfl, by decide⟩
  | emptyObject | object => exact ⟨'\x7b', _, rfl, by decide⟩
  | lastItem _ _ ih | item _ _ _ _ ih =>
      obtain ⟨c, ds, hCs, hHead⟩ := ih
      exact hFront ds hCs _ hHead
  | lastMember | member => exact hFront _ (stringText_toList _) _ (by decide)

/-! ## The reader on a text -/

/-- A budget that is not below the length of a text is not used up. -/
theorem Phrase.HasText.exists_budget {phrase : Phrase} {cs : List Char} {fuel : Nat}
    (h : phrase.HasText cs) (hFuel : cs.length ≤ fuel) : ∃ k, fuel = k + 1 := by
  obtain ⟨c, ds, rfl, -⟩ := h.head
  exact Nat.exists_eq_add_of_le' (Nat.le_trans (Nat.le_add_left 1 ds.length) hFuel)

/-- The reader takes the characters for the phrase, whatever follows them, with a budget that is
not below their number. -/
def Phrase.Reads (cs : List Char) : Phrase → Prop
  | .value json => ∀ fuel rest, cs.length ≤ fuel + 1 → Ends rest →
    JsonReader.value (fuel + 1) (cs ++ rest) = some (json, rest)
  | .items xs => ∀ fuel done rest, cs.length ≤ fuel + 1 →
    JsonReader.items (fuel + 1) done (cs ++ rest) = some (.array (done.reverse ++ xs), rest)
  | .members ms => ∀ fuel done rest, cs.length ≤ fuel + 1 →
    JsonReader.members (fuel + 1) done (cs ++ rest) =
      some (ofMembers (done.reverse ++ ms), rest)

theorem Phrase.reads_string (s : String) :
    Phrase.Reads (stringText s).toList (.value (.string s)) := by
  intro fuel rest hFuel _
  have hLength := length_lt_stringText s
  have hRead : stringLiteral (fuel + 1) ((stringText s).toList ++ rest) = some (s, rest) :=
    stringLiteral_text s (by omega)
  rw [stringText_toList, List.cons_append] at hRead ⊢
  show (stringBody (fuel + 1) "" _).map _ = _
  rw [show stringBody (fuel + 1) "" _ = _ from hRead]
  rfl

/-- Items in brackets are an array. -/
theorem Phrase.reads_array {items : List Json} {b cs : List Char} (hb : Blanks b)
    (hText : Phrase.HasText (.items items) cs) (h : Phrase.Reads cs (.items items)) :
    Phrase.Reads ('[' :: (b ++ cs)) (.value (.array items)) := by
  intro fuel rest hFuel _
  rw [List.length_cons, List.length_append] at hFuel
  obtain ⟨fuel, rfl⟩ := hText.exists_budget (show cs.length ≤ fuel by omega)
  have hRead := h fuel [] rest (by omega)
  obtain ⟨c, ds, rfl, hBlank, hClose, -⟩ := hText.head
  rw [List.cons_append, List.append_assoc, List.cons_append,
    value_array (skipBlanks_blanks hb hBlank _) hClose]
  exact hRead

/-- Members in braces are an object, whatever their order. -/
theorem Phrase.reads_object {members written : List (String × Json)} {b cs : List Char}
    (hSorted : Entries.Sorted members) (hPerm : written.Perm members) (hb : Blanks b)
    (hText : Phrase.HasText (.members written) cs) (h : Phrase.Reads cs (.members written)) :
    Phrase.Reads ('\x7b' :: (b ++ cs)) (.value (.object members)) := by
  intro fuel rest hFuel _
  rw [List.length_cons, List.length_append] at hFuel
  obtain ⟨fuel, rfl⟩ := hText.exists_budget (show cs.length ≤ fuel by omega)
  have hRead := h fuel [] rest (by omega)
  rw [List.reverse_nil, List.nil_append, ofMembers, hSorted.ofList_perm hPerm] at hRead
  obtain ⟨c, ds, rfl, hBlank, -, hClose⟩ := hText.head
  rw [List.cons_append, List.append_assoc, List.cons_append,
    value_object (skipBlanks_blanks hb hBlank _) hClose]
  exact hRead

section

variable {item : Json} {items : List Json} {key : String} {members : List (String × Json)}
  {b b₁ b₂ b₃ b₄ cs ds rest : List Char} {c : Char} {fuel : Nat}

/-- A value inside a container is read up to the blanks and the separator behind it. -/
theorem Phrase.Reads.before (h : Phrase.Reads cs (.value item))
    (hText : Phrase.HasText (.value item) cs) (hb : Blanks b)
    (hc : c = ',' ∨ c = ']' ∨ c = '\x7d') (hFuel : cs.length ≤ fuel) :
    JsonReader.value fuel (cs ++ (b ++ c :: rest)) = some (item, b ++ c :: rest) := by
  obtain ⟨fuel, rfl⟩ := hText.exists_budget hFuel
  refine h fuel _ hFuel (ends_blanks hb ?_)
  rintro _ ⟨rfl⟩
  obtain rfl | rfl | rfl := hc <;> decide

/-- An item, up to the separator behind it. -/
theorem Phrase.items_step (hItem : Phrase.Reads cs (.value item))
    (hText : Phrase.HasText (.value item) cs) (hb : Blanks b) (hc : c = ',' ∨ c = ']')
    (hFuel : cs.length ≤ fuel) (done : List Json) :
    JsonReader.items (fuel + 1) done (cs ++ (b ++ c :: rest)) =
      if c = ',' then JsonReader.items fuel (item :: done) (skipBlanks rest)
      else some (.array (item :: done).reverse, rest) := by
  have hSeparator : c = ',' ∨ c = ']' ∨ c = '\x7d' := hc.imp_right .inl
  have hEnd : skipBlanks (b ++ c :: rest) = c :: rest := skipBlanks_blanks hb (by
    obtain rfl | rfl := hc <;> decide) rest
  simp only [JsonReader.items, hItem.before hText hb hSeparator hFuel, hEnd]
  obtain rfl | rfl := hc <;> rfl

/-- A key, a colon and a value, up to the separator behind them. -/
theorem Phrase.members_step (h₁ : Blanks b₁) (h₂ : Blanks b₂)
    (hItem : Phrase.Reads cs (.value item)) (hText : Phrase.HasText (.value item) cs)
    (h₃ : Blanks b₃) (hc : c = ',' ∨ c = '\x7d') (hKey : key.length < fuel + 1)
    (hFuel : cs.length ≤ fuel) (done : List (String × Json)) :
    JsonReader.members (fuel + 1) done
        ((stringText key).toList ++ (b₁ ++ ':' :: (b₂ ++ (cs ++ (b₃ ++ c :: rest))))) =
      if c = ',' then JsonReader.members fuel ((key, item) :: done) (skipBlanks rest)
      else some (ofMembers ((key, item) :: done).reverse, rest) := by
  have hSeparator : c = ',' ∨ c = ']' ∨ c = '\x7d' := hc.imp_right .inr
  have hRead : JsonReader.value fuel (cs ++ (b₃ ++ c :: rest)) = some (item, b₃ ++ c :: rest) :=
    hItem.before hText h₃ hSeparator hFuel
  obtain ⟨d, ds, rfl, hBlank, -, -⟩ := hText.head
  rw [List.cons_append] at hRead ⊢
  have hColon := skipBlanks_blanks (c := ':') h₁ (by decide)
  have hEnd : skipBlanks (b₃ ++ c :: rest) = c :: rest := skipBlanks_blanks h₃ (by
    obtain rfl | rfl := hc <;> decide) rest
  simp only [JsonReader.members, stringLiteral_text key hKey, hColon,
    skipBlanks_blanks h₂ hBlank, hRead, hEnd]
  obtain rfl | rfl := hc <;> rfl

/-! One more item or member, and then the end or the rest of them. -/

theorem Phrase.reads_lastItem (hText : Phrase.HasText (.value item) cs) (hb : Blanks b)
    (hItem : Phrase.Reads cs (.value item)) :
    Phrase.Reads (cs ++ (b ++ [']'])) (.items [item]) := by
  intro fuel done rest hFuel
  simp only [List.length_append, List.length_singleton] at hFuel
  rw [List.append_assoc, List.append_assoc, List.singleton_append,
    Phrase.items_step hItem hText hb (.inr rfl) (by omega), if_neg (by decide), List.reverse_cons]

theorem Phrase.reads_item (hText : Phrase.HasText (.value item) cs) (h₁ : Blanks b₁)
    (h₂ : Blanks b₂) (hTexts : Phrase.HasText (.items items) ds)
    (hItem : Phrase.Reads cs (.value item)) (hItems : Phrase.Reads ds (.items items)) :
    Phrase.Reads (cs ++ (b₁ ++ ',' :: (b₂ ++ ds))) (.items (item :: items)) := by
  intro fuel done rest hFuel
  simp only [List.length_append, List.length_cons] at hFuel
  obtain ⟨fuel, rfl⟩ := hTexts.exists_budget (show ds.length ≤ fuel by omega)
  have hRest := hItems fuel (item :: done) rest (by omega)
  obtain ⟨c, ds, rfl, hBlank, -, -⟩ := hTexts.head
  simp only [List.append_assoc, List.cons_append] at hRest ⊢
  rw [Phrase.items_step hItem hText h₁ (.inl rfl) (by omega), if_pos rfl,
    skipBlanks_blanks h₂ hBlank, hRest, List.reverse_cons, List.append_assoc,
    List.singleton_append]

theorem Phrase.reads_lastMember (h₁ : Blanks b₁) (h₂ : Blanks b₂)
    (hText : Phrase.HasText (.value item) cs) (h₃ : Blanks b₃)
    (hItem : Phrase.Reads cs (.value item)) :
    Phrase.Reads ((stringText key).toList ++ (b₁ ++ ':' :: (b₂ ++ (cs ++ (b₃ ++ ['\x7d'])))))
      (.members [(key, item)]) := by
  intro fuel done rest hFuel
  have hKey := length_lt_stringText key
  simp only [List.length_append, List.length_cons] at hFuel
  simp only [List.append_assoc, List.cons_append, List.nil_append]
  rw [Phrase.members_step h₁ h₂ hItem hText h₃ (.inr rfl) (by omega) (by omega),
    if_neg (by decide), List.reverse_cons]

theorem Phrase.reads_member (h₁ : Blanks b₁) (h₂ : Blanks b₂)
    (hText : Phrase.HasText (.value item) cs) (h₃ : Blanks b₃) (h₄ : Blanks b₄)
    (hTexts : Phrase.HasText (.members members) ds) (hItem : Phrase.Reads cs (.value item))
    (hMembers : Phrase.Reads ds (.members members)) :
    Phrase.Reads
      ((stringText key).toList ++ (b₁ ++ ':' :: (b₂ ++ (cs ++ (b₃ ++ ',' :: (b₄ ++ ds))))))
      (.members ((key, item) :: members)) := by
  intro fuel done rest hFuel
  have hKey := length_lt_stringText key
  simp only [List.length_append, List.length_cons] at hFuel
  obtain ⟨fuel, rfl⟩ := hTexts.exists_budget (show ds.length ≤ fuel by omega)
  have hRest := hMembers fuel ((key, item) :: done) rest (by omega)
  obtain ⟨c, ds, rfl, hBlank, -, -⟩ := hTexts.head
  simp only [List.append_assoc, List.cons_append] at hRest ⊢
  rw [Phrase.members_step h₁ h₂ hItem hText h₃ (.inl rfl) (by omega) (by omega), if_pos rfl,
    skipBlanks_blanks h₄ hBlank, hRest, List.reverse_cons, List.append_assoc,
    List.singleton_append]

end

/-- The reader takes every text of a phrase. -/
theorem Phrase.HasText.reads {phrase : Phrase} {cs : List Char} (h : phrase.HasText cs) :
    phrase.Reads cs := by
  induction h with
  | null => exact fun _ _ _ _ => rfl
  | bool value => cases value <;> exact fun _ _ _ _ => rfl
  | integer h => exact fun _ _ _ hEnds => value_integer h hEnds
  | string s => exact Phrase.reads_string s
  | emptyArray hb =>
      intro fuel rest _ _
      rw [List.cons_append, List.append_assoc]
      exact value_emptyArray (skipBlanks_blanks hb (by decide) rest)
  | array hb hItems ih => exact Phrase.reads_array hb hItems ih
  | emptyObject hb =>
      intro fuel rest _ _
      rw [List.cons_append, List.append_assoc]
      exact value_emptyObject (skipBlanks_blanks hb (by decide) rest)
  | object hSorted hPerm hb hMembers ih => exact Phrase.reads_object hSorted hPerm hb hMembers ih
  | lastItem hItem hb ih => exact Phrase.reads_lastItem hItem hb ih
  | item hItem h₁ h₂ hItems ih ihRest => exact Phrase.reads_item hItem h₁ h₂ hItems ih ihRest
  | lastMember h₁ h₂ hItem h₃ ih => exact Phrase.reads_lastMember h₁ h₂ hItem h₃ ih
  | member h₁ h₂ hItem h₃ h₄ hMembers ih ihRest =>
      exact Phrase.reads_member h₁ h₂ hItem h₃ h₄ hMembers ih ihRest

/-- Every text of a value is read as the value. -/
theorem HasText.parse {json : Json} {text : String} (h : json.HasText text) :
    Json.parse text = some json := by
  obtain ⟨b₁, cs, b₂, h₁, hText, h₂, hEq⟩ := h
  have hEnds : Ends b₂ := List.append_nil b₂ ▸ ends_blanks h₂ ends_nil
  have hRead := hText.reads text.toList.length b₂ (by
    rw [hEq, List.length_append, List.length_append]
    omega) hEnds
  have hSkip : skipBlanks text.toList = cs ++ b₂ := by
    obtain ⟨c, ds, rfl, hBlank, -, -⟩ := hText.head
    rw [hEq, List.cons_append, skipBlanks_blanks h₁ hBlank]
  unfold Json.parse
  dsimp only
  rw [hSkip, hRead]
  dsimp only
  rw [skipBlanks_all h₂]
  rfl

/-- A text belongs to one value. -/
theorem HasText.unique {a b : Json} {text : String} (ha : a.HasText text) (hb : b.HasText text) :
    a = b := Option.some.inj (ha.parse.symm.trans hb.parse)

end Json

end TypedCircuit
