/-!
# Named entries in ascending order

Objects of a document, members of a record and shapes of an object are all finite maps
from names to something. They are lists of entries in strictly ascending order of their
names, so two equal maps are equal lists and every traversal visits the names in one
order, the order of `String` by code points.

## Main results

* `find?_insert_self`, `find?_insert_ne` — inserting an entry changes what is found
  under its name and nothing else.
* `Sorted.insert`, `sorted_ofList` — everything built by insertion is in order.
-/

namespace TypedCircuit

/-- Named entries, in ascending order of their names when built by `insert`. -/
abbrev Entries (α : Type) := List (String × α)

namespace Entries

variable {α : Type}

/-- The entry under a name. -/
def find? : Entries α → String → Option α
  | [], _ => none
  | (key, a) :: rest, name => if key = name then some a else find? rest name

/-- Adds an entry at its place, or replaces the entry of that name. -/
def insert : Entries α → String → α → Entries α
  | [], name, a => [(name, a)]
  | (key, b) :: rest, name, a =>
    if name < key then (name, a) :: (key, b) :: rest
    else if key = name then (name, a) :: rest
    else (key, b) :: insert rest name a

/-- The entries of a list in which the last entry of a name wins. -/
def ofList (entries : List (String × α)) : Entries α :=
  entries.foldl (fun out entry => insert out entry.1 entry.2) []

/-- The names, in order. -/
def names (entries : Entries α) : List String := entries.map Prod.fst

/-- The set of some names, in ascending order. -/
def nameSet (names : List String) : List String :=
  Entries.names (ofList (names.map fun name => (name, ())))

/-- The names are strictly ascending. -/
def Sorted (entries : Entries α) : Prop := entries.names.Pairwise (· < ·)

theorem find?_insert_self (entries : Entries α) (name : String) (a : α) :
    (entries.insert name a).find? name = some a := by
  induction entries with
  | nil => simp [insert, find?]
  | cons entry rest ih =>
      obtain ⟨key, b⟩ := entry
      simp only [insert]
      split
      · simp [find?]
      · split
        · simp [find?]
        · next hNe => simp [find?, hNe, ih]

theorem find?_insert_ne (entries : Entries α) {name other : String} (a : α)
    (h : name ≠ other) : (entries.insert name a).find? other = entries.find? other := by
  induction entries with
  | nil => simp [insert, find?, h]
  | cons entry rest ih =>
      obtain ⟨key, b⟩ := entry
      simp only [insert]
      split
      · simp [find?, h]
      · split
        · next hEq => subst hEq; simp [find?, h]
        · simp [find?, ih]

theorem mem_names_insert {entries : Entries α} {name other : String} {a : α}
    (h : other ∈ (entries.insert name a).names) : other = name ∨ other ∈ entries.names := by
  induction entries with
  | nil => simpa [insert, names] using h
  | cons entry rest ih =>
      obtain ⟨key, b⟩ := entry
      simp only [insert] at h
      split at h
      · simpa [names] using h
      · split at h
        · simp only [names, List.map_cons, List.mem_cons] at h ⊢
          exact h.elim Or.inl fun hRest => Or.inr (Or.inr hRest)
        · simp only [names, List.map_cons, List.mem_cons] at h ih ⊢
          rcases h with hKey | hRest
          · exact Or.inr (Or.inl hKey)
          · exact (ih hRest).elim Or.inl fun hOld => Or.inr (Or.inr hOld)

/-- Inserting keeps the names strictly ascending. -/
theorem Sorted.insert {entries : Entries α} (h : entries.Sorted) (name : String) (a : α) :
    (entries.insert name a).Sorted := by
  induction entries with
  | nil => simp [Sorted, Entries.insert, names]
  | cons entry rest ih =>
      obtain ⟨key, b⟩ := entry
      have hKey : ∀ other ∈ names rest, key < other := (List.pairwise_cons.1 h).1
      have hRest : Sorted rest := (List.pairwise_cons.1 h).2
      simp only [Entries.insert]
      split
      · next hLt =>
          refine List.pairwise_cons.2 ⟨fun other hMem => ?_, h⟩
          rcases List.mem_cons.1 hMem with rfl | hMem
          · exact hLt
          · exact String.lt_trans hLt (hKey other hMem)
      · next hNotLt =>
          split
          · next hEq => subst hEq; exact List.pairwise_cons.2 ⟨hKey, hRest⟩
          · next hNe =>
              refine List.pairwise_cons.2 ⟨fun other hMem => ?_, ih hRest⟩
              rcases mem_names_insert hMem with rfl | hOld
              · exact Std.lt_of_le_of_ne (String.not_lt.1 hNotLt) hNe
              · exact hKey other hOld

theorem sorted_ofList (entries : List (String × α)) : (ofList entries).Sorted := by
  suffices h : ∀ out : Entries α, out.Sorted →
      (entries.foldl (fun out entry => Entries.insert out entry.1 entry.2) out).Sorted from
    h [] List.Pairwise.nil
  induction entries with
  | nil => exact fun _ h => h
  | cons entry rest ih => exact fun out h => ih _ (h.insert entry.1 entry.2)

end Entries

end TypedCircuit
