import TypedCircuit.ConstraintSystem
import TypedCircuit.Proofs.Json.Writing

/-!
# Constraint systems survive their documents

The document of a constraint system names everything in it: the kind of a gate tells which fields
it has, a wire tells a constant from a variable, and a constant is written with all its digits.
The reader looks the fields up by their names and checks that every number is a word of the
length its field has, so what it returns for the document of a system is the system itself if the
numbers of the system are such words. That is `Fits`, and nothing else is asked of the system.

Numbers of this length are also the ones that a text names exactly, so the system is read again
from every text of its document: whatever stands between the tokens, and in whatever order the
counts, the gates and the fields of a gate are written.

## Main results

* `ConstraintSystem.Fits.ofJson?_toJson` — the document is read as the system.
* `ConstraintSystem.Fits.exact_toJson` — a text names the document exactly.
* `ConstraintSystem.Fits.read_written` — so the system is read again from every text.
-/

namespace TypedCircuit

/-! ## Words -/

theorem Json.nat?_nat (n : Nat) : (Json.nat n).nat? = some n := by
  show (if (n : Int) < 0 then none else some n) = some n
  exact if_neg (Int.not_lt.2 (Int.natCast_nonneg n))

/-- A word of a length is read as such a word. -/
theorem Json.word?_nat {bits n : Nat} (h : n < Nat.pow 2 bits) : (Json.nat n).word? bits = some n := by
  unfold Json.word?
  rw [Json.nat?_nat]
  exact if_pos (decide_eq_true h)

theorem Json.exact_nat {n : Nat} (h : n < Nat.pow 2 64) : (Json.nat n).Exact := by
  refine .integer ⟨?_, Int.ofNat_lt.2 h⟩
  exact Int.le_trans (by decide) (Int.natCast_nonneg n)

/-- The document of an element is read as the element. -/
theorem Element.ofJson?_toJson (x : Element) : Element.ofJson? x.toJson = some x := by
  show (Element.parse x.text).toOption = some x
  rw [Element.parse_text]
  rfl

/-! ## Wires -/

/-- The index of a wire, if it has one, is a 64-bit word. -/
def Wire.Fits : Wire → Prop
  | .constant _ => True
  | .variable index => index < Nat.pow 2 64

instance : DecidablePred Wire.Fits
  | .constant _ => inferInstanceAs (Decidable True)
  | .variable index => inferInstanceAs (Decidable (index < Nat.pow 2 64))

/-- The document of a wire is read as the wire. -/
theorem Wire.Fits.ofJson?_toJson {wire : Wire} (h : wire.Fits) :
    Wire.ofJson? wire.toJson = some wire := by
  rcases wire with value | index
  · show (Element.ofJson? value.toJson).map Wire.constant = _
    rw [Element.ofJson?_toJson]
    rfl
  · show ((Json.nat index).word? 64).map Wire.variable = _
    rw [Json.word?_nat h]
    rfl

theorem Wire.Fits.exact_toJson {wire : Wire} (h : wire.Fits) : wire.toJson.Exact := by
  rcases wire with value | index
  · exact .object (List.pairwise_singleton _ _)
      (List.forall_mem_singleton.2 (.string value.text))
  · exact .object (List.pairwise_singleton _ _) (List.forall_mem_singleton.2 (Json.exact_nat h))

/-! ## Gates -/

/-- Every index of a gate is a 64-bit word, and the width of a range is a 32-bit word. -/
def Gate.Fits : Gate → Prop
  | .derived _ left right output => left.Fits ∧ right.Fits ∧ output < Nat.pow 2 64
  | .assertEqual left right => left.Fits ∧ right.Fits
  | .boolean wire => wire.Fits
  | .range wire bits => wire.Fits ∧ bits < Nat.pow 2 32

instance : DecidablePred Gate.Fits
  | .derived _ left right output =>
    inferInstanceAs (Decidable (left.Fits ∧ right.Fits ∧ output < Nat.pow 2 64))
  | .assertEqual left right => inferInstanceAs (Decidable (left.Fits ∧ right.Fits))
  | .boolean wire => inferInstanceAs (Decidable wire.Fits)
  | .range wire bits => inferInstanceAs (Decidable (wire.Fits ∧ bits < Nat.pow 2 32))

theorem Gate.Operation.ofKind?_kind (operation : Gate.Operation) :
    Gate.Operation.ofKind? operation.kind = some operation := by
  cases operation <;> rfl

/-- The document of a gate is read as the gate. -/
theorem Gate.Fits.ofJson?_toJson {gate : Gate} (h : gate.Fits) :
    Gate.ofJson? gate.toJson = some gate := by
  cases gate with
  | derived operation left right output =>
      obtain ⟨hLeft, hRight, hOutput⟩ := h
      show Gate.ofFields? operation.kind (Entries.find?
        [("kind", .string operation.kind), ("left", left.toJson), ("output", .nat output),
          ("right", right.toJson)]) = _
      unfold Gate.ofFields?
      rw [Gate.Operation.ofKind?_kind]
      show (do
        let left ← Wire.ofJson? left.toJson
        let right ← Wire.ofJson? right.toJson
        let output ← (Json.nat output).word? 64
        return Gate.derived operation left right output) = _
      rw [hLeft.ofJson?_toJson, hRight.ofJson?_toJson, Json.word?_nat hOutput]
      rfl
  | assertEqual left right =>
      show (do
        let left ← Wire.ofJson? left.toJson
        let right ← Wire.ofJson? right.toJson
        return Gate.assertEqual left right) = _
      rw [h.1.ofJson?_toJson, h.2.ofJson?_toJson]
      rfl
  | boolean wire =>
      show (do
        let wire ← Wire.ofJson? wire.toJson
        return Gate.boolean wire) = _
      rw [Wire.Fits.ofJson?_toJson h]
      rfl
  | range wire bits =>
      show (do
        let wire ← Wire.ofJson? wire.toJson
        let bits ← (Json.nat bits).word? 32
        return Gate.range wire bits) = _
      rw [h.1.ofJson?_toJson, Json.word?_nat h.2]
      rfl

theorem Gate.Fits.exact_toJson {gate : Gate} (h : gate.Fits) : gate.toJson.Exact := by
  cases gate with
  | derived operation left right output =>
      obtain ⟨hLeft, hRight, hOutput⟩ := h
      refine .object (show ["kind", "left", "output", "right"].Pairwise (· < ·) by decide) ?_
      refine List.forall_mem_cons.2 ⟨.string operation.kind, List.forall_mem_cons.2 ⟨?_, ?_⟩⟩
      · exact hLeft.exact_toJson
      · exact List.forall_mem_cons.2
          ⟨Json.exact_nat hOutput, List.forall_mem_singleton.2 hRight.exact_toJson⟩
  | assertEqual left right =>
      refine .object (show ["kind", "left", "right"].Pairwise (· < ·) by decide) ?_
      exact List.forall_mem_cons.2 ⟨.string "assert_equal", List.forall_mem_cons.2
        ⟨h.1.exact_toJson, List.forall_mem_singleton.2 h.2.exact_toJson⟩⟩
  | boolean wire =>
      refine .object (show ["kind", "wire"].Pairwise (· < ·) by decide) ?_
      exact List.forall_mem_cons.2
        ⟨.string "boolean", List.forall_mem_singleton.2 (Wire.Fits.exact_toJson h)⟩
  | range wire bits =>
      refine .object (show ["bits", "kind", "wire"].Pairwise (· < ·) by decide) ?_
      have hBits : bits < Nat.pow 2 64 := Nat.lt_trans h.2 (by decide)
      exact List.forall_mem_cons.2 ⟨Json.exact_nat hBits, List.forall_mem_cons.2
        ⟨.string "range", List.forall_mem_singleton.2 h.1.exact_toJson⟩⟩

/-! ## Systems -/

namespace ConstraintSystem

/-- The numbers of a system are words of the length that their fields have. -/
structure Fits (cs : ConstraintSystem) : Prop where
  variableCount : cs.variableCount < Nat.pow 2 64
  witnessCount : cs.witnessCount < Nat.pow 2 64
  gates : ∀ gate ∈ cs.gates, gate.Fits

theorem exact_gatesJson {cs : ConstraintSystem} (h : ∀ gate ∈ cs.gates, gate.Fits) :
    cs.gatesJson.Exact := by
  refine .array fun json hJson => ?_
  obtain ⟨gate, hGate, rfl⟩ := List.mem_map.1 hJson
  exact (h gate hGate).exact_toJson

/-- The documents of gates are read as the gates. -/
theorem mapM_ofJson?_toJson {gates : List Gate} (h : ∀ gate ∈ gates, gate.Fits) :
    (gates.map Gate.toJson).mapM Gate.ofJson? = some gates := by
  induction gates with
  | nil => rfl
  | cons gate gates ih =>
      obtain ⟨hGate, hGates⟩ := List.forall_mem_cons.1 h
      rw [List.map_cons, List.mapM_cons, hGate.ofJson?_toJson, ih hGates]
      rfl

variable {cs : ConstraintSystem}

/-- The document of a system is read as the system. -/
theorem Fits.ofJson?_toJson (h : cs.Fits) : ofJson? cs.toJson = some cs := by
  show (do
    let variableCount ← (Json.nat cs.variableCount).word? 64
    let witnessCount ← (Json.nat cs.witnessCount).word? 64
    let gates ← (cs.gates.map Gate.toJson).mapM Gate.ofJson?
    return ({ variableCount, witnessCount, gates } : ConstraintSystem)) = _
  rw [Json.word?_nat h.variableCount, Json.word?_nat h.witnessCount, mapM_ofJson?_toJson h.gates]
  rfl

/-- A text names the document of a system exactly. -/
theorem Fits.exact_toJson (h : cs.Fits) : cs.toJson.Exact := by
  refine .object
    (show ["gates", "variable_count", "witness_count"].Pairwise (· < ·) by decide) ?_
  exact List.forall_mem_cons.2 ⟨exact_gatesJson h.gates, List.forall_mem_cons.2
    ⟨Json.exact_nat h.variableCount, List.forall_mem_singleton.2 (Json.exact_nat h.witnessCount)⟩⟩

/-- A system whose numbers are words is read again from its document and from every text of it,
the one-line text among them. -/
theorem Fits.read_written (h : cs.Fits) :
    ofJson? cs.toJson = some cs ∧
      (∀ text, cs.toJson.HasText text → (Json.parse text).bind ofJson? = some cs) ∧
      cs.toJson.HasText cs.toJson.compact := by
  refine ⟨h.ofJson?_toJson, fun text hText => ?_, h.exact_toJson.hasText_compact⟩
  rw [hText.parse]
  exact h.ofJson?_toJson

/-- A system with a gate of every kind, in which every number is the greatest of its length. -/
def greatest : ConstraintSystem where
  variableCount := 18446744073709551615
  witnessCount := 18446744073709551615
  gates :=
    let greatestElement : Wire := .constant ⟨modulus - 1, by decide⟩
    let greatestIndex : Wire := .variable 18446744073709551615
    [.derived .add greatestElement greatestIndex 18446744073709551615,
      .derived .sub greatestIndex greatestElement 18446744073709551615,
      .derived .mul greatestIndex greatestIndex 18446744073709551615,
      .derived .isEqual greatestElement greatestElement 18446744073709551615,
      .assertEqual greatestElement greatestIndex, .boolean greatestIndex,
      .range greatestIndex 4294967295]

theorem read_written_greatest :
    greatest.Fits ∧ ofJson? greatest.toJson = some greatest ∧
      (Json.parse greatest.toJson.compact).bind ofJson? = some greatest := by
  have hFits : greatest.Fits := ⟨by decide, by decide, by decide⟩
  obtain ⟨hDocument, hTexts, hCompact⟩ := hFits.read_written
  exact ⟨hFits, hDocument, hTexts _ hCompact⟩

end ConstraintSystem

end TypedCircuit
