import TypedCircuit.Proofs.Documents.Readable

/-!
# How large a shape document may be

A short document can ask for a large shape, because it can ask for copies, and for copies of
copies. What it expands to is a number that the document alone determines. The reader never
computes it. It counts nodes in machine words, which may run full, and it compares twice: the
copies of an array before it makes them, without the array itself, and the whole shape in the end.

Both comparisons together draw the line exactly. A sum that has run full is past the limit, and so
is every sum it is added to, unless copies are asked for no times; and where all lengths are
positive, no part of a document expands to more than the whole.

## Main results

* `Shape.nodes_of_ofJson` — a shape that was read has the nodes its document expands to, as far as
  they can be counted.
* `ShapeDocument.size_limit` — the documents that are accepted, by what they expand to.
-/

namespace TypedCircuit

namespace Json

/-! ## What a document expands to -/

/-- The sum of all entries. -/
def total : Entries Nat → Nat
  | [] => 0
  | (_, n) :: rest => n + total rest

/-- What a mapping expands to, given what stands under its keys expands to. -/
def expansionOfMapping (members : Entries Json) (expansions : Entries Nat) : Nat :=
  match members.find? Shape.constantKey, expansions.find? Shape.arrayKey with
  | some _, _ => 1
  | none, some n => 1 + ((members.find? Shape.lengthKey).bind nat?).getD 0 * n
  | none, none => 1 + total expansions

mutual

/-- How many nodes the shape of a document expands to: one for a leaf or a constant, one more than
its parts for a sequence or a mapping, and one more than all copies for an array of copies. -/
def expansion : Json → Nat
  | .array items => 1 + expansionOfItems items
  | .object members => expansionOfMapping members (expansions members)
  | .null | .bool _ | .number _ | .string _ => 1

/-- How many nodes the shapes of items expand to. -/
def expansionOfItems : List Json → Nat
  | [] => 0
  | json :: rest => json.expansion + expansionOfItems rest

/-- How many nodes the shapes under the keys of a mapping expand to. -/
def expansions : List (String × Json) → Entries Nat
  | [] => []
  | (key, json) :: rest => (key, json.expansion) :: expansions rest

end

/-! ## Well-formed documents -/

/-- A document has the form of a shape in which nothing is copied fewer times than `least`. -/
inductive IsShape (least : Nat) : Json → Prop where
  | leaf {name : String} (h : name ∈ ["Field", "Bool", "UInt32"]) : IsShape least (.string name)
  | sequence {items : List Json} (h : ∀ item ∈ items, IsShape least item) :
    IsShape least (.array items)
  | constant (json : Json) : IsShape least (.object [(Shape.constantKey, json)])
  | copies {members : Entries Json} {element : Json} {length : Nat} (hTwo : members.length = 2)
    (hElement : members.find? Shape.arrayKey = some element)
    (hLength : members.find? Shape.lengthKey = some (.nat length)) (hLeast : least ≤ length)
    (h : IsShape least element) : IsShape least (.object members)
  | mapping {members : Entries Json} (hConstant : members.find? Shape.constantKey = none)
    (hArray : members.find? Shape.arrayKey = none) (h : ∀ m ∈ members, IsShape least m.2) :
    IsShape least (.object members)

theorem nat?_eq_some {json : Json} {n : Nat} : json.nat? = some n ↔ json = .nat n := by
  constructor
  · intro h
    unfold nat? at h
    split at h
    · next value =>
        split at h
        · cases h
        · next hPos =>
            cases h
            exact congrArg (fun i => Json.number (.integer i)) (Int.toNat_of_nonneg (by omega)).symm
    · cases h
  · rintro rfl
    show (if (n : Int) < 0 then none else some (Int.toNat n)) = some n
    rw [if_neg (Int.not_lt.2 (Int.natCast_nonneg n)), Int.toNat_natCast]

theorem expansions_eq (members : List (String × Json)) :
    expansions members = members.map fun m => (m.1, m.2.expansion) := by
  induction members with
  | nil => rfl
  | cons m rest ih => rw [expansions, ih, List.map_cons]

theorem total_expansions (members : List (String × Json)) :
    total (expansions members) = expansionOfItems (members.map Prod.snd) := by
  induction members with
  | nil => rfl
  | cons m rest ih => rw [expansions, total, ih, List.map_cons, expansionOfItems]

theorem expansionOfItems_replicate (json : Json) (count : Nat) :
    expansionOfItems (List.replicate count json) = count * json.expansion := by
  induction count with
  | zero => exact (Nat.zero_mul _).symm
  | succ count ih => rw [List.replicate_succ, expansionOfItems, ih, Nat.succ_mul, Nat.add_comm]

theorem expansion_le_of_mem {items : List Json} {json : Json} (h : json ∈ items) :
    json.expansion ≤ expansionOfItems items := by
  induction items with
  | nil => cases h
  | cons first rest ih =>
      rw [expansionOfItems]
      rcases List.mem_cons.1 h with rfl | hRest
      · omega
      · have := ih hRest
        omega

section Mapping

variable {members : Entries Json}

theorem expansion_constant {json : Json} (h : members.find? Shape.constantKey = some json) :
    (object members).expansion = 1 := by
  rw [expansion, expansionOfMapping, h]

theorem expansion_copies {element : Json} {length : Nat}
    (hConstant : members.find? Shape.constantKey = none)
    (hElement : members.find? Shape.arrayKey = some element)
    (hLength : members.find? Shape.lengthKey = some (.nat length)) :
    (object members).expansion = 1 + length * element.expansion := by
  have hFind : Entries.find? (expansions members) Shape.arrayKey = some element.expansion := by
    rw [expansions_eq, Entries.find?_map, hElement]
    rfl
  rw [expansion, expansionOfMapping, hConstant, hFind, hLength, Option.bind_some,
    nat?_eq_some.2 rfl, Option.getD_some]

theorem expansion_mapping (hConstant : members.find? Shape.constantKey = none)
    (hArray : members.find? Shape.arrayKey = none) :
    (object members).expansion = 1 + expansionOfItems (members.map Prod.snd) := by
  have hFind : Entries.find? (expansions members) Shape.arrayKey = none := by
    rw [expansions_eq, Entries.find?_map, hArray]
    rfl
  rw [expansion, expansionOfMapping, hConstant, hFind, total_expansions]

/-- Of two keys that are those of an array of copies, none is that of a constant. -/
theorem constantKey_notFound {element length : Json} (hTwo : members.length = 2)
    (hElement : members.find? Shape.arrayKey = some element)
    (hLength : members.find? Shape.lengthKey = some length) :
    members.find? Shape.constantKey = none := by
  rw [Entries.find?_eq_none_iff]
  intro hConstant
  have hSubset : [Shape.constantKey, Shape.arrayKey, Shape.lengthKey] ⊆ members.names := by
    simp only [List.cons_subset, List.nil_subset, and_true]
    exact ⟨hConstant, Entries.mem_names_of_find? hElement, Entries.mem_names_of_find? hLength⟩
  have hLe := (List.subperm_of_subset (by decide) hSubset).length_le
  rw [Entries.names, List.length_map, hTwo] at hLe
  exact absurd hLe (by decide)

end Mapping

end Json

/-! ## Counting in words -/

/-- A number as far as it can be counted. -/
def counted (n : Nat) : Nat := min n greatestCount

theorem counted_le {n : Nat} (h : n ≤ maxNodes) : counted n = n :=
  Nat.min_eq_left (Nat.le_trans h (by decide))

/-- A count is within the limit if the number is, because the greatest count is not. -/
theorem counted_le_maxNodes {n : Nat} : counted n ≤ maxNodes ↔ n ≤ maxNodes := by
  have hLimit : maxNodes < greatestCount := by decide
  unfold counted
  omega

theorem sumOfCounts_counted (m n : Nat) :
    sumOfCounts (counted m) (counted n) = counted (m + n) := by
  unfold sumOfCounts counted
  omega

namespace Shape

open Json

/-- The nodes of a shape are those that a document expands to, as far as they can be counted. -/
def Counts (json : Json) (s : Shape) : Prop := s.nodes = counted json.expansion

theorem itemsNodes_counted {items : List Json} {shapes : List Shape}
    (h : List.Forall₂ Counts items shapes) (n : Nat) :
    itemsNodes (counted n) shapes = counted (n + expansionOfItems items) := by
  induction h generalizing n with
  | nil => rfl
  | @cons json s items shapes hHead _ ih =>
      rw [itemsNodes, hHead, sumOfCounts_counted, ih, expansionOfItems, Nat.add_assoc]

theorem membersNodes_eq (n : Nat) (members : List (String × Shape)) :
    membersNodes n members = itemsNodes n (members.map Prod.snd) := by
  induction members generalizing n with
  | nil => rfl
  | cons m rest ih => rw [membersNodes, ih, List.map_cons, itemsNodes]

theorem counts_array {items : List Json} {shapes : List Shape}
    (h : List.Forall₂ Counts items shapes) : Counts (.array items) (.array shapes) := by
  rw [Counts, nodes, expansion]
  exact itemsNodes_counted h 1

/-- The shape that was read from a document is counted right, and the document has the form of one. -/
def ReadRight (json : Json) : Prop := ∀ s, ofJson json = .ok s → json.IsShape 0 ∧ Counts json s

theorem readRight_leaf (name : String) : ReadRight (.string name) := by
  intro s h
  change ofLeafName name = .ok s at h
  unfold ofLeafName at h
  split at h
  · next hName => cases h; exact ⟨.leaf (by simp [hName]), rfl⟩
  · split at h
    · next hName => cases h; exact ⟨.leaf (by simp [hName]), rfl⟩
    · split at h
      · next hName => cases h; exact ⟨.leaf (by simp [hName]), rfl⟩
      · cases h

theorem readRight_array {items : List Json} (hItems : ∀ item ∈ items, ReadRight item) :
    ReadRight (.array items) := by
  intro s h
  rw [ofJson] at h
  obtain ⟨shapes, hShapes, hEq⟩ := bind_eq_ok.1 h
  cases hEq
  obtain ⟨own, hOwn, rfl⟩ := ofItems_eq_ok.1 hShapes
  have hAll : List.Forall₂ (fun item s => item.IsShape 0 ∧ Counts item s) items own :=
    ((List.forall₂_and_left _ _).2 ⟨hItems, hOwn⟩).imp fun _ _ hItem => hItem.1 _ hItem.2
  refine ⟨.sequence fun item hItem => ?_, counts_array (hAll.imp fun _ _ hItem => hItem.2)⟩
  obtain ⟨t, -, hForm, -⟩ := exists_of_forall₂_mem hAll.flip hItem
  exact hForm

theorem readRight_object {members : List (String × Json)}
    (hMembers : ∀ m ∈ members, ReadRight m.2) : ReadRight (.object members) := by
  intro s h
  rcases ofMapping_eq_ok.1 h with ⟨json, hFind, hOne, rfl⟩ |
    ⟨hConstant, ⟨json, length, element, hFind, hLength, hTwo, hElement, hCopies⟩ |
      ⟨hArray, shapes, hShapes, rfl⟩⟩
  · obtain ⟨m, rfl⟩ := List.length_eq_one_iff.1 hOne
    obtain rfl := List.mem_singleton.1 (Entries.mem_of_find? hFind)
    refine ⟨.constant json, ?_⟩
    rw [Counts, expansion_constant hFind]
    rfl
  · obtain ⟨number, hNumber, hLength⟩ := Option.bind_eq_some_iff.1 hLength
    obtain rfl := nat?_eq_some.1 hLength
    obtain ⟨-, rfl⟩ := copies_eq_ok.1 hCopies
    obtain ⟨hForm, hCount⟩ := hMembers _ (Entries.mem_of_find? hFind) element hElement
    refine ⟨.copies hTwo hFind hNumber (Nat.zero_le _) hForm, ?_⟩
    have hNodes := itemsNodes_counted (forall₂_replicate hCount length) 1
    rw [expansionOfItems_replicate] at hNodes
    rw [Counts, expansion_copies hConstant hFind hNumber]
    exact hNodes
  · have hAll : List.Forall₂ (fun m n => m.2.IsShape 0 ∧ Counts m.2 n.2) members shapes :=
      ((List.forall₂_and_left _ _).2 ⟨hMembers, hShapes⟩).imp fun _ _ hm => hm.1 _ hm.2.2
    refine ⟨.mapping hConstant hArray fun m hm => ?_, ?_⟩
    · obtain ⟨n, -, hForm, -⟩ := exists_of_forall₂_mem hAll.flip hm
      exact hForm
    · have hCounts : List.Forall₂ Counts (members.map Prod.snd) (shapes.map Prod.snd) := by
        rw [List.forall₂_map_left_iff, List.forall₂_map_right_iff]
        exact hAll.imp fun _ _ hm => hm.2
      rw [Counts, expansion_mapping hConstant hArray, nodes, membersNodes_eq]
      exact itemsNodes_counted hCounts 1

mutual

theorem readRight : ∀ json : Json, ReadRight json
  | .string name => readRight_leaf name
  | .array items => readRight_array (itemsReadRight items)
  | .object members => readRight_object (membersReadRight members)
  | .null => nofun
  | .bool _ => nofun
  | .number _ => nofun

theorem itemsReadRight : ∀ items : List Json, ∀ item ∈ items, ReadRight item
  | [] => List.forall_mem_nil _
  | json :: rest => List.forall_mem_cons.2 ⟨readRight json, itemsReadRight rest⟩

theorem membersReadRight : ∀ members : List (String × Json), ∀ m ∈ members, ReadRight m.2
  | [] => List.forall_mem_nil _
  | (_, json) :: rest => List.forall_mem_cons.2 ⟨readRight json, membersReadRight rest⟩

end

/-- A shape that was read has the nodes its document expands to, as far as they can be counted. -/
theorem nodes_of_ofJson {json : Json} {s : Shape} (h : ofJson json = .ok s) :
    s.nodes = counted json.expansion := (readRight json s h).2

/-! ## What is read -/

/-- A document in which everything is copied at least once is read, if it expands to no more than
the limit: no part of it expands to more. -/
theorem exists_shape_of_le {json : Json} (h : json.IsShape 1) (hSize : json.expansion ≤ maxNodes) :
    ∃ s, ofJson json = .ok s := by
  induction h with
  | leaf h =>
      simp only [List.mem_cons, List.not_mem_nil, or_false] at h
      rcases h with rfl | rfl | rfl <;> exact ⟨_, rfl⟩
  | @sequence items h ih =>
      rw [expansion] at hSize
      obtain ⟨shapes, hShapes⟩ := exists_forall₂ fun item hItem =>
        ih item hItem (Nat.le_trans (expansion_le_of_mem hItem) (by omega))
      exact ⟨.array shapes, bind_eq_ok.2 ⟨shapes, ofItems_eq_ok.2 ⟨shapes, hShapes, rfl⟩, rfl⟩⟩
  | constant json => exact ⟨.constant json, rfl⟩
  | @copies members element length hTwo hElement hLength hLeast h ih =>
      have hConstant := constantKey_notFound hTwo hElement hLength
      rw [expansion_copies hConstant hElement hLength] at hSize
      have hOnce : element.expansion ≤ length * element.expansion := Nat.le_mul_of_pos_left _ hLeast
      obtain ⟨s, hShape⟩ := ih (by omega)
      have hNodes : s.nodes = element.expansion :=
        (nodes_of_ofJson hShape).trans (counted_le (by omega))
      refine ⟨replicate length s, ofMapping_eq_ok.2 (.inr ⟨hConstant, .inl ⟨element, length, s,
        hElement, ?_, hTwo, hShape, copies_eq_ok.2 ⟨by rw [hNodes]; omega, rfl⟩⟩⟩)⟩
      rw [hLength]
      exact nat?_eq_some.2 rfl
  | @mapping members hConstant hArray h ih =>
      rw [expansion_mapping hConstant hArray] at hSize
      have hAll : ∀ m ∈ members, ∃ n : String × Shape, m.1 = n.1 ∧ ofJson m.2 = .ok n.2 := by
        intro m hm
        have hPart := expansion_le_of_mem (List.mem_map_of_mem (f := Prod.snd) hm)
        obtain ⟨s, hShape⟩ := ih m hm (by omega)
        exact ⟨(m.1, s), rfl, hShape⟩
      obtain ⟨shapes, hShapes⟩ := exists_forall₂ hAll
      exact ⟨.object shapes, ofMapping_eq_ok.2 (.inr ⟨hConstant, .inr ⟨hArray, shapes, hShapes,
        rfl⟩⟩)⟩

end Shape

/-! ## Documents -/

namespace ShapeDocument

/-- What stands for a key order is one: it is missing, or it is a list of names. -/
def IsKeyOrder (found : Option Json) : Prop :=
  found = none ∨ found = some .null ∨ ∃ names : List String, found = some (.array (names.map .string))

/-- A document has a shape of the right form, in which nothing is copied fewer times than `least`,
and a key order if it has one. -/
structure WellFormed (least : Nat) (document : Json) : Prop where
  shape : ∃ shape, document.get? "shape" = some shape ∧ shape.IsShape least
  order : IsKeyOrder (document.get? "order")

theorem exists_order_iff {found : Option Json} :
    (∃ order?, orderOf found = .ok order?) ↔ IsKeyOrder found := by
  constructor
  · rintro ⟨order?, h⟩
    unfold orderOf at h
    split at h
    · exact .inl rfl
    · exact .inr (.inl rfl)
    · next keys =>
        obtain ⟨names, hNames, -⟩ := bind_eq_ok.1 h
        refine .inr (.inr ⟨names, congrArg (fun items => some (Json.array items)) ?_⟩)
        rw [← List.forall₂_eq_eq_eq, List.forall₂_map_right_iff]
        refine (mapM_eq_ok.1 hNames).imp fun json name hName => ?_
        cases json with
        | string value => cases hName; rfl
        | null | bool | number | array | object => cases hName
    · cases h
  · rintro (rfl | rfl | ⟨names, rfl⟩)
    · exact ⟨none, rfl⟩
    · exact ⟨none, rfl⟩
    · refine ⟨some names, bind_eq_ok.2 ⟨names, mapM_eq_ok.2 ?_, rfl⟩⟩
      rw [List.forall₂_map_left_iff, List.forall₂_same]
      exact fun name _ => rfl

/--
The limit on what a shape document expands to is exact. A document that is accepted is well-formed,
it expands to no more than the limit, and its shape is counted to have just the nodes it expands to,
so that no sum on the way has run full. And a well-formed document in which everything is copied at
least once is accepted as soon as it expands to no more than the limit, however often it asks for
copies and however deep.
-/
theorem size_limit {document shape : Json} (hShape : document.get? "shape" = some shape) :
    (∀ d, parse document = .ok d → WellFormed 0 document ∧ shape.expansion ≤ maxNodes ∧
      d.shape.nodes = shape.expansion) ∧
    (WellFormed 1 document → ((∃ d, parse document = .ok d) ↔ shape.expansion ≤ maxNodes)) := by
  have hAccepted : ∀ d, parse document = .ok d → WellFormed 0 document ∧
      shape.expansion ≤ maxNodes ∧ d.shape.nodes = shape.expansion := by
    intro d h
    obtain ⟨json, hJson, hOrder, hRead, hFits⟩ := parse_eq_ok.1 h
    cases hShape.symm.trans hJson
    obtain ⟨hForm, hCount⟩ := Shape.readRight shape d.shape hRead
    rw [hCount, counted_le_maxNodes] at hFits
    exact ⟨⟨⟨shape, hShape, hForm⟩, exists_order_iff.1 ⟨_, hOrder⟩⟩, hFits,
      hCount.trans (counted_le hFits)⟩
  refine ⟨hAccepted, fun h => ⟨fun ⟨d, hd⟩ => (hAccepted d hd).2.1, fun hFits => ?_⟩⟩
  obtain ⟨json, hJson, hForm⟩ := h.shape
  cases hShape.symm.trans hJson
  obtain ⟨order?, hOrder⟩ := exists_order_iff.2 h.order
  obtain ⟨s, hRead⟩ := Shape.exists_shape_of_le hForm hFits
  refine ⟨⟨s, order?⟩, parse_eq_ok.2 ⟨shape, hShape, hOrder, hRead, ?_⟩⟩
  rw [Shape.nodes_of_ofJson hRead, counted_le_maxNodes]
  exact hFits

/-- A document of rows of bits. -/
private def grid (rows columns : Nat) : Json :=
  .object [("shape", .object
    [("$array", .object [("$array", .string "Bool"), ("$length", .nat columns)]),
      ("$length", .nat rows)])]

private theorem wellFormed_grid (rows columns : Nat) (hRows : 1 ≤ rows) (hColumns : 1 ≤ columns) :
    WellFormed 1 (grid rows columns) :=
  ⟨⟨_, rfl, .copies rfl rfl rfl hRows (.copies rfl rfl rfl hColumns (.leaf (by decide)))⟩, .inl rfl⟩

/-- Of 1024 rows, each may have 1022 columns. With one more, the copies of a row are as many nodes as
the limit, and the array itself is one too many. Lengths may be the greatest words. -/
theorem size_limit_grid :
    (WellFormed 1 (grid 1024 1022) ∧ ∃ d, parse (grid 1024 1022) = .ok d) ∧
    (WellFormed 1 (grid 1024 1023) ∧ ¬ ∃ d, parse (grid 1024 1023) = .ok d) ∧
    (WellFormed 1 (grid greatestCount greatestCount) ∧
      ¬ ∃ d, parse (grid greatestCount greatestCount) = .ok d) := by
  have hAccepted := wellFormed_grid 1024 1022 (by decide) (by decide)
  have hBeyond := wellFormed_grid 1024 1023 (by decide) (by decide)
  have hHuge := wellFormed_grid greatestCount greatestCount (by decide) (by decide)
  refine ⟨⟨hAccepted, ((size_limit rfl).2 hAccepted).2 (by decide)⟩, ⟨hBeyond, fun h => ?_⟩,
    hHuge, fun h => ?_⟩
  · exact absurd (((size_limit rfl).2 hBeyond).1 h) (by decide)
  · exact absurd (((size_limit rfl).2 hHuge).1 h) (by decide)

end ShapeDocument

end TypedCircuit
