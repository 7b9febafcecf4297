import TypedCircuit.Proofs.Constraints.Reading

/-!
# Digests tell gate lists apart

The digest of a constraint system is the hash of the canonical text of its gates. Two gate lists
with one text are one list: the text is read as the document of the list, and the document as the
list. So what is left when two digests agree and the gates do not is that the hash function takes
two different messages to one state. The digits of the digest add nothing to that, because the
eight words of a state are written with eight digits each and can be told from them.

This is `digest_eq_iff`: it is no statement about how hard such messages are to find, and it names
the two messages that would collide.

## Main results

* `Sha256.ofText_eq_iff` — texts with one hash are equal, or they collide.
* `ConstraintSystem.canonicalText_eq_iff` — the canonical text names the gate list.
* `ConstraintSystem.digest_eq_iff` — so the digest names it up to a collision.
-/

namespace TypedCircuit

/-! ## The digits of a hash -/

namespace Sha256

/-- Two different messages that the hash function takes to one state. -/
def Collide (x y : ByteArray) : Prop := x ≠ y ∧ finalState x = finalState y

theorem digitChar_inj : ∀ a < 16, ∀ b < 16, Nat.digitChar a = Nat.digitChar b → a = b := by
  decide

theorem length_wordHex (w : UInt32) : (wordHex w).toList.length = 8 := by
  rw [wordHex, String.toList_ofList, List.length_map, List.length_range]

/-- Numbers are equal if their last hexadecimal digits are and what is left without these is. -/
theorem eq_of_digits {n a b : Nat} (hHigh : a >>> (4 * n) = b >>> (4 * n))
    (h : ∀ k < n, (a >>> (4 * k)) % 16 = (b >>> (4 * k)) % 16) : a = b := by
  induction n with
  | zero => exact hHigh
  | succ n ih =>
      have hDrop (m : Nat) : m >>> (4 * (n + 1)) = m >>> (4 * n) / 16 := by
        rw [Nat.mul_succ, Nat.shiftRight_add]
        exact Nat.shiftRight_eq_div_pow _ 4
      have hDigit := h n (Nat.lt_succ_self n)
      rw [hDrop, hDrop] at hHigh
      exact ih (by omega) fun k hk => h k (Nat.lt_succ_of_lt hk)

/-- A word has no more than eight digits. -/
theorem shiftRight_word (w : UInt32) : w.toNat >>> 32 = 0 :=
  (Nat.shiftRight_eq_div_pow _ _).trans (Nat.div_eq_of_lt w.toNat_lt)

/-- The digits of a word name the word. -/
theorem wordHex_inj {x y : UInt32} (h : (wordHex x).toList = (wordHex y).toList) : x = y := by
  rw [wordHex, wordHex, String.toList_ofList, String.toList_ofList] at h
  have hHigh : x.toNat >>> (4 * 8) = y.toNat >>> (4 * 8) :=
    (shiftRight_word x).trans (shiftRight_word y).symm
  refine UInt32.toNat_inj.1 (eq_of_digits hHigh fun k hk => ?_)
  -- The first digit that is written is the last one counted.
  have hChar := List.map_inj_left.1 h (7 - k) (List.mem_range.2 (by omega))
  rw [show 7 - (7 - k) = k by omega] at hChar
  exact digitChar_inj _ (Nat.mod_lt _ (by decide)) _ (Nat.mod_lt _ (by decide)) hChar

/-- Words that are written one after another are told apart, as all of them have one length. -/
theorem flatMap_wordHex_inj {xs ys : List UInt32} (hLength : xs.length = ys.length)
    (h : xs.flatMap (fun w => (wordHex w).toList) = ys.flatMap fun w => (wordHex w).toList) :
    xs = ys := by
  induction xs generalizing ys with
  | nil => exact (List.length_eq_zero_iff.1 hLength.symm).symm
  | cons x xs ih =>
      cases ys with
      | nil => cases hLength
      | cons y ys =>
          rw [List.flatMap_cons, List.flatMap_cons] at h
          obtain ⟨hHead, hTail⟩ :=
            List.append_inj h ((length_wordHex x).trans (length_wordHex y).symm)
          rw [wordHex_inj hHead, ih (Nat.succ.inj hLength) hTail]

/-- The words of a state, in the order of a digest. -/
def State.words (s : State) : List UInt32 := [s.a, s.b, s.c, s.d, s.e, s.f, s.g, s.h]

theorem State.length_words (s : State) : s.words.length = 8 := rfl

theorem State.words_inj {s t : State} (h : s.words = t.words) : s = t := by
  cases s
  cases t
  cases h
  rfl

theorem hexDigest_toList (message : ByteArray) :
    (hexDigest message).toList =
      (finalState message).words.flatMap fun w => (wordHex w).toList := by
  show (String.join ((finalState message).words.map wordHex)).toList = _
  rw [String.toList_join, List.flatMap_map]

/-- Messages have one digest if and only if they end in one state. -/
theorem hexDigest_eq_iff {x y : ByteArray} :
    hexDigest x = hexDigest y ↔ finalState x = finalState y := by
  refine ⟨fun h => ?_, fun h => ?_⟩
  · have hList := congrArg String.toList h
    rw [hexDigest_toList, hexDigest_toList] at hList
    have hLength : (finalState x).words.length = (finalState y).words.length := by
      rw [State.length_words, State.length_words]
    exact State.words_inj (flatMap_wordHex_inj hLength hList)
  · apply String.toList_injective
    rw [hexDigest_toList, hexDigest_toList, h]

/-- Texts with one hash are equal, or they collide. -/
theorem ofText_eq_iff {s t : String} :
    ofText s = ofText t ↔ s = t ∨ Collide s.toUTF8 t.toUTF8 := by
  refine hexDigest_eq_iff.trans ⟨fun h => ?_, ?_⟩
  · by_cases hEq : s = t
    · exact .inl hEq
    · exact .inr ⟨fun hBytes => hEq (String.toByteArray_inj.1 hBytes), h⟩
  · rintro (rfl | ⟨-, hState⟩)
    · rfl
    · exact hState

end Sha256

/-! ## The canonical text -/

namespace ConstraintSystem

variable {a b : ConstraintSystem}

/-- Systems with one canonical text have the same gates. -/
theorem canonicalText_eq_iff (ha : ∀ gate ∈ a.gates, gate.Fits) (hb : ∀ gate ∈ b.gates, gate.Fits) :
    a.canonicalText = b.canonicalText ↔ a.gates = b.gates := by
  refine ((exact_gatesJson ha).compact_inj (exact_gatesJson hb)).trans ⟨fun h => ?_, fun h => ?_⟩
  · have hDocuments : a.gates.map Gate.toJson = b.gates.map Gate.toJson := Json.array.inj h
    have hRead := mapM_ofJson?_toJson ha
    rw [hDocuments, mapM_ofJson?_toJson hb] at hRead
    exact (Option.some.inj hRead).symm
  · rw [gatesJson, gatesJson, h]

/-- Systems whose numbers are words have one canonical text if and only if they have the same
gates, and one digest if and only if they have the same gates or their texts collide. -/
theorem digest_eq_iff (ha : ∀ gate ∈ a.gates, gate.Fits) (hb : ∀ gate ∈ b.gates, gate.Fits) :
    (a.canonicalText = b.canonicalText ↔ a.gates = b.gates) ∧
      (a.digest = b.digest ↔
        a.gates = b.gates ∨ Sha256.Collide a.canonicalText.toUTF8 b.canonicalText.toUTF8) := by
  have hText := canonicalText_eq_iff ha hb
  exact ⟨hText, Sha256.ofText_eq_iff.trans (or_congr_left hText)⟩

/-- A constant is compared with the variable of the same number. -/
def constantFirst : ConstraintSystem where
  variableCount := 9007199254740992
  witnessCount := 0
  gates := [.assertEqual (.constant 9007199254740991) (.variable 9007199254740991)]

/-- The same comparison from the other side. -/
def variableFirst : ConstraintSystem where
  variableCount := 9007199254740992
  witnessCount := 0
  gates := [.assertEqual (.variable 9007199254740991) (.constant 9007199254740991)]

theorem digest_eq_iff_sides :
    (∀ gate ∈ constantFirst.gates, gate.Fits) ∧ (∀ gate ∈ variableFirst.gates, gate.Fits) ∧
      constantFirst.canonicalText ≠ variableFirst.canonicalText ∧
      (constantFirst.digest = variableFirst.digest →
        Sha256.Collide constantFirst.canonicalText.toUTF8 variableFirst.canonicalText.toUTF8) := by
  have hFirst : ∀ gate ∈ constantFirst.gates, gate.Fits := by decide
  have hSecond : ∀ gate ∈ variableFirst.gates, gate.Fits := by decide
  have hGates : constantFirst.gates ≠ variableFirst.gates := by decide
  obtain ⟨hText, hDigest⟩ := digest_eq_iff hFirst hSecond
  exact ⟨hFirst, hSecond, fun h => hGates (hText.1 h),
    fun h => (hDigest.1 h).resolve_left hGates⟩

end ConstraintSystem

end TypedCircuit
