import TypedCircuit.Proofs.Entries
import TypedCircuit.Proofs.Equality
import TypedCircuit.Registry

/-!
# Canonical forms of values

Types accept values leniently. A record may have members that no type asks for, a composite
accepts records without a type, an object accepts records of any type, and a structure
without members accepts everything. `Value.canonical` is the strict form of a value: members
that are not named are dropped, records carry the type of their position, what stands where
nothing is taken is the empty record, and a constant is the declared one.

Canonical forms are described by following the value. What the type asks for at the top is
its `Layer`: types inside of shapes, types without capabilities and references to registered
types all open to one of four layers.

## Main results

* `Value.find?_canonicalMembers` — the members of a canonical record, name by name.
* `Value.IsCanonical.beq_canonical` — a value in canonical form equals its canonical form.
-/

namespace TypedCircuit

/-! ## Layers -/

/-- What a type asks for at the top of a value. -/
inductive Layer where
  /-- No structure. -/
  | atom
  /-- A fixed primitive. -/
  | constant (json : Json)
  /-- A type for each item. -/
  | sequence (parts : List Descriptor)
  /-- A type for each name, in a record of a type or of none. -/
  | record (tag? : Option String) (members : List (String × Descriptor))

mutual

/-- What a type asks for at the top. -/
def Descriptor.layer (r : Registry) : Descriptor → Layer
  | .leaf _ => .atom
  | .array element length => .sequence (List.replicate length element)
  | .tuple elements => .sequence elements
  | .structural root => root.layer r
  | .composite name _ => .record (some name) (r.schema name)
  | .unregistered name => .record (some name) []
  | .plain inner => inner.layer r
  | .misdeclared _ _ => .atom

/-- What a shape asks for at the top. -/
def Shape.layer (r : Registry) : Shape → Layer
  | .leaf type _ => type.layer r
  | .array items => .sequence (items.map .structural)
  | .object members => .record none (members.map fun m => (m.1, .structural m.2))
  | .constant json => .constant json

end

namespace Value

/-! ## The canonical form -/

/-- The canonical form of a value that is no array of a sequence and no record of a record
type. -/
def canonicalOther (layer : Layer) (v : Value) : Value :=
  match layer with
  | .constant json => .primitive json
  | .record tag? [] => .record tag? []
  | _ => v

mutual

/-- The canonical form of a value of a type. -/
def canonical (r : Registry) (d : Descriptor) : Value → Value
  | .array items =>
    match d.layer r with
    | .sequence parts => .array (canonicalItems r parts items)
    | layer => canonicalOther layer (.array items)
  | .record typeName? entries =>
    match d.layer r with
    | .record tag? members => .record tag? (canonicalMembers r members entries)
    | layer => canonicalOther layer (.record typeName? entries)
  | v => canonicalOther (d.layer r) v

/-- The canonical forms of items, one type an item. -/
def canonicalItems (r : Registry) : List Descriptor → List Value → List Value
  | d :: parts, v :: items => canonical r d v :: canonicalItems r parts items
  | _, _ => []

/-- The canonical forms of the members that are named. -/
def canonicalMembers (r : Registry) (members : List (String × Descriptor)) :
    List (String × Value) → Entries Value
  | [] => []
  | (name, v) :: rest =>
    match Entries.find? members name with
    | some d => (canonicalMembers r members rest).insert name (canonical r d v)
    | none => canonicalMembers r members rest

end

variable {r : Registry}

theorem canonical_array {d : Descriptor} {parts : List Descriptor}
    (h : d.layer r = .sequence parts) (items : List Value) :
    canonical r d (.array items) = .array (canonicalItems r parts items) := by
  rw [canonical, h]

theorem canonical_record {d : Descriptor} {tag? : Option String}
    {members : List (String × Descriptor)} (h : d.layer r = .record tag? members)
    (typeName? : Option String) (entries : Entries Value) :
    canonical r d (.record typeName? entries) =
      .record tag? (canonicalMembers r members entries) := by
  rw [canonical, h]

theorem canonicalMembers_nil (entries : List (String × Value)) :
    canonicalMembers r [] entries = [] := by
  induction entries with
  | nil => rfl
  | cons entry rest ih => rw [canonicalMembers]; exact ih

theorem canonical_empty {d : Descriptor} {tag? : Option String}
    (h : d.layer r = .record tag? []) (v : Value) : canonical r d v = .record tag? [] := by
  cases v with
  | record typeName? entries => rw [canonical_record h, canonicalMembers_nil]
  | signal | bit | array | primitive | opaqueValue => simp [canonical, canonicalOther, h]

theorem canonical_constant {d : Descriptor} {json : Json} (h : d.layer r = .constant json)
    (v : Value) : canonical r d v = .primitive json := by
  cases v <;> simp [canonical, canonicalOther, h]

theorem canonical_atom {d : Descriptor} (h : d.layer r = .atom) (v : Value) :
    canonical r d v = v := by
  cases v <;> simp [canonical, canonicalOther, h]

/-- Types with one layer have one canonical form. -/
theorem canonical_congr {d e : Descriptor} (h : d.layer r = e.layer r) :
    canonical r d = canonical r e := by
  funext v
  cases v <;> simp [canonical, h]

/-- The members of a canonical record are in order. -/
theorem sorted_canonicalMembers (members : List (String × Descriptor))
    (entries : List (String × Value)) : (canonicalMembers r members entries).Sorted := by
  induction entries with
  | nil => exact List.Pairwise.nil
  | cons entry rest ih =>
      rw [canonicalMembers]
      split
      · exact ih.insert _ _
      · exact ih

/-- Under a name there is the canonical form of the member, if the type has the name. -/
theorem find?_canonicalMembers (members : List (String × Descriptor))
    (entries : Entries Value) (name : String) :
    (canonicalMembers r members entries).find? name =
      (Entries.find? members name).bind fun d => (entries.find? name).map (canonical r d) := by
  induction entries with
  | nil => cases Entries.find? members name <;> rfl
  | cons entry rest ih =>
      obtain ⟨key, v⟩ := entry
      rw [canonicalMembers, Entries.find?_cons]
      by_cases hKey : key = name
      · subst hKey
        rw [if_pos rfl]
        cases hType : Entries.find? members key with
        | none => rw [ih, hType]; rfl
        | some d => rw [Entries.find?_insert_self]; rfl
      · rw [if_neg hKey, ← ih]
        split
        · rw [Entries.find?_insert_ne _ _ hKey]
        · rfl

/-! ## Being canonical -/

mutual

/-- Whether a value has the canonical form of a type: its records are in order, have the
type of their position and exactly the members that are named, and constants are as
declared. -/
def IsCanonical (r : Registry) (d : Descriptor) : Value → Prop
  | .array items =>
    match d.layer r with
    | .atom => True
    | .sequence parts => AreCanonical r parts items
    | _ => False
  | .record typeName? entries =>
    match d.layer r with
    | .atom => True
    | .record tag? members =>
      typeName? = tag? ∧ Entries.Sorted entries ∧
        (∀ name, name ∈ Entries.names entries ↔ name ∈ Entries.names members) ∧
          MembersCanonical r members entries
    | _ => False
  | .primitive json =>
    match d.layer r with
    | .atom => True
    | .constant declared => (json == declared) = true
    | _ => False
  | .signal _ | .bit _ | .opaqueValue _ =>
    match d.layer r with
    | .atom => True
    | _ => False

/-- Whether items have the canonical forms of types, one type an item. -/
def AreCanonical (r : Registry) : List Descriptor → List Value → Prop
  | [], [] => True
  | d :: parts, v :: items => IsCanonical r d v ∧ AreCanonical r parts items
  | _, _ => False

/-- Whether the members of a record have the canonical forms of their types. -/
def MembersCanonical (r : Registry) (members : List (String × Descriptor)) :
    List (String × Value) → Prop
  | [] => True
  | (name, v) :: rest =>
    (∃ d, Entries.find? members name = some d ∧ IsCanonical r d v) ∧
      MembersCanonical r members rest

end

theorem isCanonical_congr {d e : Descriptor} (h : d.layer r = e.layer r) :
    IsCanonical r d = IsCanonical r e := by
  funext v
  cases v <;> simp [IsCanonical, h]

theorem isCanonical_atom {d : Descriptor} (h : d.layer r = .atom) (v : Value) :
    IsCanonical r d v := by
  cases v <;> simp [IsCanonical, h]

/-- The names of a canonical record are among the names of the record. -/
theorem names_canonicalMembers {members : List (String × Descriptor)} {entries : Entries Value}
    {name : String} (h : name ∈ (canonicalMembers r members entries).names) :
    name ∈ entries.names := by
  obtain ⟨v, hv⟩ := Entries.exists_find?_of_mem h
  rw [find?_canonicalMembers] at hv
  obtain ⟨_, -, hFind⟩ := Option.bind_eq_some_iff.1 hv
  obtain ⟨_, hFind, -⟩ := Option.map_eq_some_iff.1 hFind
  exact Entries.mem_names_of_find? hFind

/-- In order, the canonical form of a record keeps a first member in the first place. -/
theorem canonicalMembers_cons {members : List (String × Descriptor)} {name : String}
    {v : Value} {rest : Entries Value} {d : Descriptor}
    (hSorted : Entries.Sorted ((name, v) :: rest)) (hType : Entries.find? members name = some d) :
    canonicalMembers r members ((name, v) :: rest) =
      (name, canonical r d v) :: canonicalMembers r members rest := by
  rw [canonicalMembers, hType]
  refine Entries.insert_of_lt fun other hOther => hSorted.head_lt ?_
  exact names_canonicalMembers hOther

mutual

/-- A value in canonical form equals its canonical form. -/
theorem IsCanonical.beq_canonical :
    ∀ {d : Descriptor} (v : Value), IsCanonical r d v → v.beq (canonical r d v) = true
  | d, .array items, h => by
      cases hLayer : d.layer r with
      | atom => rw [canonical_atom hLayer, beq_refl]
      | sequence parts =>
          rw [IsCanonical, hLayer] at h
          rw [canonical_array hLayer, beq, AreCanonical.beq_canonicalItems parts items h]
      | constant | record => rw [IsCanonical, hLayer] at h; exact h.elim
  | d, .record typeName? entries, h => by
      cases hLayer : d.layer r with
      | atom => rw [canonical_atom hLayer, beq_refl]
      | record tag? members =>
          rw [IsCanonical, hLayer] at h
          obtain ⟨rfl, hSorted, -, hMembers⟩ := h
          rw [canonical_record hLayer, beq, beq_self_eq_true,
            MembersCanonical.beq_canonicalMembers members entries hSorted hMembers]
          rfl
      | constant | sequence => rw [IsCanonical, hLayer] at h; exact h.elim
  | d, .primitive json, h => by
      cases hLayer : d.layer r with
      | atom => rw [canonical_atom hLayer, beq_refl]
      | constant declared =>
          rw [IsCanonical, hLayer] at h
          rw [canonical_constant hLayer, beq]
          exact h
      | sequence | record => rw [IsCanonical, hLayer] at h; exact h.elim
  | d, .signal s, h => by
      cases hLayer : d.layer r with
      | atom => rw [canonical_atom hLayer, beq_refl]
      | constant | sequence | record => rw [IsCanonical, hLayer] at h; exact h.elim
  | d, .bit b, h => by
      cases hLayer : d.layer r with
      | atom => rw [canonical_atom hLayer, beq_refl]
      | constant | sequence | record => rw [IsCanonical, hLayer] at h; exact h.elim
  | d, .opaqueValue identity, h => by
      cases hLayer : d.layer r with
      | atom => rw [canonical_atom hLayer, beq_refl]
      | constant | sequence | record => rw [IsCanonical, hLayer] at h; exact h.elim

theorem AreCanonical.beq_canonicalItems :
    ∀ (parts : List Descriptor) (items : List Value), AreCanonical r parts items →
      beqItems items (canonicalItems r parts items) = true
  | [], [], _ => rfl
  | _ :: parts, v :: items, h => by
      rw [AreCanonical] at h
      rw [canonicalItems, beqItems, IsCanonical.beq_canonical v h.1,
        AreCanonical.beq_canonicalItems parts items h.2]
      rfl
  | [], _ :: _, h => h.elim
  | _ :: _, [], h => h.elim

theorem MembersCanonical.beq_canonicalMembers (members : List (String × Descriptor)) :
    ∀ entries : List (String × Value), Entries.Sorted entries →
      MembersCanonical r members entries →
        beqMembers entries (canonicalMembers r members entries) = true
  | [], _, _ => rfl
  | (name, v) :: rest, hSorted, h => by
      rw [MembersCanonical] at h
      obtain ⟨⟨d, hType, hv⟩, hRest⟩ := h
      rw [canonicalMembers_cons hSorted hType, beqMembers, beq_self_eq_true,
        IsCanonical.beq_canonical v hv,
        MembersCanonical.beq_canonicalMembers members rest hSorted.tail hRest]
      rfl

end

end Value

end TypedCircuit
