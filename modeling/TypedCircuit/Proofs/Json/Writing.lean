import TypedCircuit.Json.Printer
import TypedCircuit.Proofs.Json.Texts

/-!
# What is written is read again

The one-line text of a value is one of its texts, so the reader inverts the writer, and different
values have different texts. This holds for the values that a text can name exactly: without
numbers other than words, and with the members of every object in order, each key once. Of a
value outside these the reader may return another one that prints alike.

The writer appends to what was written before. What it appends for a value does not depend on
that, so it is a text of its own, and the texts are put together by induction on the value.

## Main results

* `Json.Exact.parse_compact` — the one-line text is read as the value.
* `Json.Exact.compact_inj` — the one-line text names the value.
-/

namespace TypedCircuit

namespace Json

open JsonReader

/-- A text names the value exactly: its numbers are words, and its objects are in order. -/
inductive Exact : Json → Prop where
  | null : Exact .null
  | bool (value : Bool) : Exact (.bool value)
  | integer {n : Int} (h : IsWord n) : Exact (.number (.integer n))
  | string (s : String) : Exact (.string s)
  | array {items : List Json} (h : ∀ item ∈ items, Exact item) : Exact (.array items)
  | object {members : List (String × Json)} (hSorted : Entries.Sorted members)
    (h : ∀ m ∈ members, Exact m.2) : Exact (.object members)

/-- What the writer appends for a value is a text of it. -/
def Appends (json : Json) : Prop :=
  ∃ cs, Phrase.HasText (.value json) cs ∧ ∀ out, (write out json).toList = out.toList ++ cs

/-- Items that are written one after another are the inside of an array. -/
theorem appends_items {item : Json} {items : List Json}
    (h : ∀ json ∈ item :: items, json.Appends) :
    ∃ cs, Phrase.HasText (.items (item :: items)) cs ∧ ∀ out separator,
      (writeItems out separator (item :: items) ++ "]").toList =
        out.toList ++ (separator.toList ++ cs) := by
  induction items generalizing item with
  | nil =>
      obtain ⟨cs, hText, hWrite⟩ := h item List.mem_cons_self
      refine ⟨cs ++ ([] ++ [']']), .lastItem hText blanks_nil, fun out separator => ?_⟩
      rw [String.toList_append, writeItems, writeItems, hWrite, String.toList_append,
        List.append_assoc, List.append_assoc]
      rfl
  | cons next items ih =>
      obtain ⟨cs, hText, hWrite⟩ := h item List.mem_cons_self
      obtain ⟨ds, hTexts, hWrites⟩ := ih fun json hMem => h json (List.mem_cons_of_mem _ hMem)
      refine ⟨cs ++ ([] ++ ',' :: ([] ++ ds)), .item hText blanks_nil blanks_nil hTexts,
        fun out separator => ?_⟩
      rw [writeItems, hWrites, hWrite, String.toList_append, List.append_assoc, List.append_assoc]
      rfl

/-- Members that are written one after another are the inside of an object. -/
theorem appends_members {m : String × Json} {members : List (String × Json)}
    (h : ∀ other ∈ m :: members, other.2.Appends) :
    ∃ cs, Phrase.HasText (.members (m :: members)) cs ∧ ∀ out separator,
      (writeMembers out separator (m :: members) ++ "\x7d").toList =
        out.toList ++ (separator.toList ++ cs) := by
  induction members generalizing m with
  | nil =>
      obtain ⟨cs, hText, hWrite⟩ := h m List.mem_cons_self
      refine ⟨_, .lastMember blanks_nil blanks_nil hText blanks_nil, fun out separator => ?_⟩
      rw [String.toList_append, writeMembers, writeMembers, hWrite]
      simp only [String.toList_append, List.append_assoc, List.nil_append]
      rfl
  | cons next members ih =>
      obtain ⟨cs, hText, hWrite⟩ := h m List.mem_cons_self
      obtain ⟨ds, hTexts, hWrites⟩ := ih fun other hMem => h other (List.mem_cons_of_mem _ hMem)
      refine ⟨_, .member blanks_nil blanks_nil hText blanks_nil blanks_nil hTexts,
        fun out separator => ?_⟩
      rw [writeMembers, hWrites, hWrite]
      simp only [String.toList_append, List.append_assoc, List.nil_append]
      rfl

/-- Every exact value is written as a text of it. -/
theorem Exact.appends {json : Json} (h : json.Exact) : json.Appends := by
  induction h with
  | null => exact ⟨_, .null, fun out => String.toList_append⟩
  | bool value => exact ⟨_, .bool value, fun out => String.toList_append⟩
  | integer h => exact ⟨_, .integer h, fun out => String.toList_append⟩
  | string s => exact ⟨_, .string s, fun out => String.toList_append⟩
  | @array items _ ih =>
      cases items with
      | nil =>
          refine ⟨_, .emptyArray blanks_nil, fun out => ?_⟩
          rw [write, writeItems, String.toList_append, String.toList_append, List.append_assoc]
          rfl
      | cons item items =>
          obtain ⟨cs, hText, hWrite⟩ := appends_items ih
          refine ⟨_, .array blanks_nil hText, fun out => ?_⟩
          rw [write, hWrite, String.toList_append, List.append_assoc]
          rfl
  | @object members hSorted _ ih =>
      cases members with
      | nil =>
          refine ⟨_, .emptyObject blanks_nil, fun out => ?_⟩
          rw [write, writeMembers, String.toList_append, String.toList_append, List.append_assoc]
          rfl
      | cons m members =>
          obtain ⟨cs, hText, hWrite⟩ := appends_members ih
          refine ⟨_, .object hSorted (.refl _) blanks_nil hText, fun out => ?_⟩
          rw [write, hWrite, String.toList_append, List.append_assoc]
          rfl

/-- The one-line text is one of the texts of an exact value. -/
theorem Exact.hasText_compact {json : Json} (h : json.Exact) : json.HasText json.compact := by
  obtain ⟨cs, hText, hWrite⟩ := h.appends
  refine ⟨[], cs, [], blanks_nil, hText, blanks_nil, ?_⟩
  rw [compact, hWrite, List.append_nil]
  rfl

/-- The one-line text of an exact value is read as the value. -/
theorem Exact.parse_compact {json : Json} (h : json.Exact) : Json.parse json.compact = some json :=
  h.hasText_compact.parse

/-- Exact values with one text are one value. -/
theorem Exact.compact_inj {a b : Json} (ha : a.Exact) (hb : b.Exact) :
    a.compact = b.compact ↔ a = b := by
  refine ⟨fun h => ?_, fun h => h ▸ rfl⟩
  have hText := ha.hasText_compact
  rw [h] at hText
  exact hText.unique hb.hasText_compact

end Json

end TypedCircuit
