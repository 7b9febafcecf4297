import TypedCircuit.Json.Parser
import TypedCircuit.Proofs.Entries

/-!
# Documents with their members in order

An object of a document has each key once, and its members stand in ascending order of their
keys. The form of a document does not say so, but every object that the reader makes is built by
insertion, so the documents it returns are in order at every depth.

The reader follows the nesting with a budget. What it returns for one budget is put together
from what it returns for the budget below, so the proof is one step for each of its three
functions and an induction on the budget.

## Main results

* `Json.parse_ordered` — a document that was read is in order.
-/

namespace TypedCircuit

/-- The members of every object in a document are in order. -/
inductive Json.Ordered : Json → Prop where
  | null : Json.Ordered .null
  | bool (value : Bool) : Json.Ordered (.bool value)
  | number (value : JsonNumber) : Json.Ordered (.number value)
  | string (value : String) : Json.Ordered (.string value)
  | array {items : List Json} (h : ∀ item ∈ items, Json.Ordered item) :
    Json.Ordered (.array items)
  | object {members : List (String × Json)} (hSorted : Entries.Sorted members)
    (h : ∀ m ∈ members, Json.Ordered m.2) : Json.Ordered (.object members)

namespace Json

theorem Ordered.items {items : List Json} (h : (Json.array items).Ordered) :
    ∀ item ∈ items, item.Ordered := by
  cases h with
  | array h => exact h

theorem Ordered.members {members : List (String × Json)} (h : (Json.object members).Ordered) :
    Entries.Sorted members ∧ ∀ m ∈ members, m.2.Ordered := by
  cases h with
  | object hSorted h => exact ⟨hSorted, h⟩

/-- A member of a document in order is in order. -/
theorem Ordered.get? {json member : Json} {key : String} (h : json.Ordered)
    (hGet : json.get? key = some member) : member.Ordered := by
  cases json with
  | object members => exact h.members.2 (key, member) (Entries.mem_of_find? hGet)
  | null | bool | number | string | array => cases hGet

theorem ordered_ofMembers {members : List (String × Json)} (h : ∀ m ∈ members, m.2.Ordered) :
    (ofMembers members).Ordered :=
  .object (Entries.sorted_ofList members) fun m hm => h m (Entries.mem_ofList hm)

end Json

/-! ## The reader -/

namespace JsonReader

/-- What the reader returns within a budget is in order, if what it read before is. -/
structure ReadsOrdered (fuel : Nat) : Prop where
  value {cs rest : List Char} {json : Json} (h : value fuel cs = some (json, rest)) :
    json.Ordered
  items {done : List Json} (hDone : ∀ item ∈ done, item.Ordered) {cs rest : List Char}
    {json : Json} (h : items fuel done cs = some (json, rest)) : json.Ordered
  members {done : List (String × Json)} (hDone : ∀ m ∈ done, m.2.Ordered)
    {cs rest : List Char} {json : Json} (h : members fuel done cs = some (json, rest)) :
    json.Ordered

variable {fuel : Nat} {cs rest : List Char} {json : Json}

/-- Wherever a document starts, it is a word, a string, a number or a container. -/
theorem ReadsOrdered.value_step (hBelow : ReadsOrdered fuel)
    (h : JsonReader.value (fuel + 1) cs = some (json, rest)) : json.Ordered := by
  unfold JsonReader.value at h
  split at h
  · obtain ⟨_, -, hEq⟩ := Option.map_eq_some_iff.1 h
    cases hEq
    exact .null
  · obtain ⟨_, -, hEq⟩ := Option.map_eq_some_iff.1 h
    cases hEq
    exact .bool true
  · obtain ⟨_, -, hEq⟩ := Option.map_eq_some_iff.1 h
    cases hEq
    exact .bool false
  · obtain ⟨_, -, hEq⟩ := Option.map_eq_some_iff.1 h
    cases hEq
    exact .string _
  · obtain ⟨_, -, hEq⟩ := Option.map_eq_some_iff.1 h
    cases hEq
    exact .number _
  · split at h
    · cases h
      exact .array nofun
    · exact hBelow.items (List.forall_mem_nil _) h
  · split at h
    · cases h
      exact .object List.Pairwise.nil nofun
    · exact hBelow.members (List.forall_mem_nil _) h
  · obtain ⟨_, -, hEq⟩ := Option.map_eq_some_iff.1 h
    cases hEq
    exact .number _

/-- One more item, and then the rest of them or the end. -/
theorem ReadsOrdered.items_step (hBelow : ReadsOrdered fuel) {done : List Json}
    (hDone : ∀ item ∈ done, item.Ordered)
    (h : JsonReader.items (fuel + 1) done cs = some (json, rest)) : json.Ordered := by
  unfold JsonReader.items at h
  split at h
  · cases h
  · next item _ hItem =>
      have hNext : ∀ other ∈ item :: done, other.Ordered :=
        List.forall_mem_cons.2 ⟨hBelow.value hItem, hDone⟩
      split at h
      · exact hBelow.items hNext h
      · cases h
        exact .array fun other hOther => hNext other (List.mem_reverse.1 hOther)
      · cases h

/-- One more member, and then the rest of them or the end. -/
theorem ReadsOrdered.members_step (hBelow : ReadsOrdered fuel) {done : List (String × Json)}
    (hDone : ∀ m ∈ done, m.2.Ordered)
    (h : JsonReader.members (fuel + 1) done cs = some (json, rest)) : json.Ordered := by
  unfold JsonReader.members at h
  split at h
  · cases h
  · next key _ _ =>
      split at h
      · split at h
        · cases h
        · next item _ hItem =>
            have hNext : ∀ m ∈ (key, item) :: done, m.2.Ordered :=
              List.forall_mem_cons.2 ⟨hBelow.value hItem, hDone⟩
            split at h
            · exact hBelow.members hNext h
            · cases h
              exact Json.ordered_ofMembers fun m hm => hNext m (List.mem_reverse.1 hm)
            · cases h
      · cases h

theorem readsOrdered (fuel : Nat) : ReadsOrdered fuel := by
  induction fuel with
  | zero => exact ⟨nofun, fun _ => nofun, fun _ => nofun⟩
  | succ fuel ih =>
      exact ⟨ih.value_step, fun hDone => ih.items_step hDone, fun hDone => ih.members_step hDone⟩

end JsonReader

/-- A document that was read is in order. -/
theorem Json.parse_ordered {text : String} {json : Json} (h : parse text = some json) :
    json.Ordered := by
  unfold parse at h
  dsimp only at h
  split at h
  · next hValue =>
      split at h
      · cases h
        exact (JsonReader.readsOrdered _).value hValue
      · cases h
  · cases h

end TypedCircuit
