import TypedCircuit.Layout
import TypedCircuit.Proofs.Codec.Places
import TypedCircuit.Proofs.Documents.Readable
import Mathlib.Data.List.Chain

/-!
# Layouts are flattenings

The layout of a shape document is made by a walk of its own, with a running offset. The walk adds
the places of the shape that its type is built from, one by one, so the entries of the layout are
these places, each at the sum of the sizes before it. A value is flattened place after place as
well; what stands at the offset of an entry is therefore what the value has at the path of the
entry, flattened.

## Main results

* `Layout.walk_eq` — the walk adds the places of a shape.
* `ShapeDocument.ofDocument_eq` — the entries of a layout are the places of the type.
* `ShapeDocument.layout_describes` — offsets, sizes and slices of the layout of a shape document.
-/

namespace TypedCircuit

/-! ## Texts of paths -/

/-- A step as a layout shows it. -/
def Step.text : Step → String
  | .key name => "/" ++ name
  | .position index => "/" ++ toString index

/-- A path as a layout shows it, before the empty path gets its slash. -/
def Step.texts : List Step → String
  | [] => ""
  | step :: path => step.text ++ Step.texts path

/-- The path of a place as a layout shows it. -/
def Place.text (p : Place) : String :=
  match p.path with
  | [] => "/"
  | path => Step.texts path

/-- The entry of a place that starts at an offset. -/
def Place.entry (p : Place) (offset : Nat) : LayoutEntry :=
  ⟨p.text, p.type.typeName, offset, p.width.fields⟩

theorem Step.texts_isEmpty (step : Step) (path : List Step) :
    (Step.texts (step :: path)).isEmpty = false := by
  cases step with
  | key name => simp [Step.texts, Step.text]
  | position index => simp [Step.texts, Step.text]

namespace Layout

/-! ## The walk -/

/-- Adds a place of a shape that stands at a path. -/
def addPlace (path : String) (layout : Layout) (p : Place) : Layout :=
  layout.add (path ++ Step.texts p.path) p.type.typeName p.width.fields

/-- Places are added from further out as they are from one step inside. -/
theorem foldl_under (path : String) (step : Step) (places : List Place) (layout : Layout) :
    (places.map (.under step)).foldl (addPlace path) layout =
      places.foldl (addPlace (path ++ step.text)) layout := by
  rw [List.foldl_map]
  congr 1
  funext layout p
  rw [addPlace, addPlace, Place.under, Step.texts, String.append_assoc]

mutual

/-- The walk over a shape adds the places of the shape. -/
theorem walk_eq : ∀ (s : Shape) (path : String) (layout : Layout),
    walk path layout s = s.places.foldl (addPlace path) layout
  | .leaf _ _, path, layout => by
      rw [walk, Shape.places, List.foldl_cons, List.foldl_nil, addPlace, Step.texts,
        String.append_empty]
  | .array items, path, layout => walkItems_eq items path 0 layout
  | .object members, path, layout => walkMembers_eq members path layout
  | .constant _, _, _ => rfl

theorem walkItems_eq : ∀ (items : List Shape) (path : String) (position : Nat) (layout : Layout),
    walkItems path position layout items =
      (Shape.placesOfItems position items).foldl (addPlace path) layout
  | [], _, _, _ => rfl
  | s :: rest, path, position, layout => by
      rw [walkItems, Shape.placesOfItems, List.foldl_append, foldl_under, walkItems_eq rest,
        walk_eq s, Step.text, String.append_assoc]

theorem walkMembers_eq : ∀ (members : List (String × Shape)) (path : String) (layout : Layout),
    walkMembers path layout members =
      (Shape.placesOfMembers members).foldl (addPlace path) layout
  | [], _, _ => rfl
  | (name, s) :: rest, path, layout => by
      rw [walkMembers, Shape.placesOfMembers, List.foldl_append, foldl_under, walkMembers_eq rest,
        walk_eq s, Step.text, String.append_assoc]

end

/-! ## Entries -/

/-- The entries of places, each at the end of the one before it. -/
def entriesFrom (offset : Nat) : List Place → List LayoutEntry
  | [] => []
  | p :: rest => p.entry offset :: entriesFrom (offset + p.width.fields) rest

theorem addPlace_outermost (layout : Layout) (p : Place) :
    addPlace "" layout p =
      ⟨p.entry layout.next :: layout.entries, layout.next + p.width.fields⟩ := by
  obtain ⟨path, type, width⟩ := p
  rw [addPlace, add, String.empty_append]
  cases path with
  | nil => rfl
  | cons step path =>
      simp only [Step.texts_isEmpty]
      rfl

/-- Places that are added to a layout are listed after it. -/
theorem entries_foldl (places : List Place) (layout : Layout) :
    (places.foldl (addPlace "") layout).entries.reverse =
      layout.entries.reverse ++ entriesFrom layout.next places := by
  induction places generalizing layout with
  | nil => exact (List.append_nil _).symm
  | cons p rest ih =>
      rw [List.foldl_cons, ih, addPlace_outermost, List.reverse_cons, List.append_assoc]
      rfl

/-- How many elements entries take. -/
def totalSize : List LayoutEntry → Nat
  | [] => 0
  | e :: rest => e.size + totalSize rest

theorem totalSize_entriesFrom (places : List Place) (offset : Nat) :
    totalSize (entriesFrom offset places) = Place.total places := by
  induction places generalizing offset with
  | nil => rfl
  | cons p rest ih => exact congrArg (p.width.fields + ·) (ih _)

theorem offset_head_entriesFrom (places : List Place) (offset : Nat) :
    ∀ e ∈ (entriesFrom offset places).head?, e.offset = offset := by
  cases places with
  | nil => nofun
  | cons p rest =>
      intro e he
      cases he
      rfl

/-- Each entry starts where the one before it ends. -/
theorem isChain_entriesFrom (places : List Place) (offset : Nat) :
    (entriesFrom offset places).IsChain fun e next => next.offset = e.offset + e.size := by
  induction places generalizing offset with
  | nil => exact .nil
  | cons p rest ih =>
      exact List.isChain_cons.2 ⟨offset_head_entriesFrom rest _, ih _⟩

/-- Entries show their places. -/
theorem forall₂_entriesFrom {R : LayoutEntry → Place → Prop} {places : List Place}
    (h : ∀ p ∈ places, ∀ offset, R (p.entry offset) p) (offset : Nat) :
    List.Forall₂ R (entriesFrom offset places) places := by
  induction places generalizing offset with
  | nil => exact .nil
  | cons p rest ih =>
      obtain ⟨hHead, hRest⟩ := List.forall_mem_cons.1 h
      exact .cons (hHead offset) (ih hRest _)

/-- What stands at the offset of an entry is what the place of the entry is flattened to. -/
theorem slices_entriesFrom {S : Place → List Signal → Prop} {places : List Place}
    {chunks : List (List Signal)} (h : List.Forall₂ S places chunks)
    (hLength : ∀ p ∈ places, ∀ chunk, S p chunk → chunk.length = p.width.fields)
    (before : List Signal) :
    List.Forall₂ (fun e p => S p (((before ++ chunks.flatten).drop e.offset).take e.size))
      (entriesFrom before.length places) places := by
  induction h generalizing before with
  | nil => exact .nil
  | @cons p chunk places chunks hHead _ ih =>
      obtain ⟨hOwn, hRest⟩ := List.forall_mem_cons.1 hLength
      have hSize := hOwn chunk hHead
      rw [List.flatten_cons]
      refine .cons ?_ ?_
      · show S p (((before ++ (chunk ++ chunks.flatten)).drop before.length).take p.width.fields)
        rw [List.drop_left, ← hSize, List.take_left]
        exact hHead
      · have hMore := ih hRest (before ++ chunk)
        rwa [List.length_append, hSize, List.append_assoc] at hMore

end Layout

/-! ## Shape documents -/

/-- The leaves of a shape are the leaves of the shape in another order of its keys. -/
theorem Shape.at?_reordered {members : Entries Shape} {order : List String}
    (h : order.Perm members.names) {path : List Step} {type : Descriptor} {width : Width} :
    (Shape.object (order.filterMap fun key => (members.find? key).map (key, ·))).at? path =
        some (.leaf type width) ↔
      (Shape.object members).at? path = some (.leaf type width) := by
  cases path with
  | nil => exact ⟨nofun, nofun⟩
  | cons step path =>
      have hChild : (Shape.object (order.filterMap fun key =>
          (members.find? key).map (key, ·))).child? step = (Shape.object members).child? step := by
        cases step with
        | key name => exact Entries.find?_reordered h name
        | position => rfl
      rw [Shape.at?_cons, Shape.at?_cons, hChild]

namespace ShapeDocument

/-- The layout of a document lists the places of the shape that its type is built from. -/
theorem ofDocument_eq {doc : ShapeDocument} {d : Descriptor} (h : doc.descriptor = .ok d) :
    ∃ root, d = .structural root ∧ Layout.ofDocument doc = Layout.entriesFrom 0 root.places ∧
      ∀ path type width, root.at? path = some (.leaf type width) ↔
        doc.shape.at? path = some (.leaf type width) := by
  obtain ⟨shape, order?⟩ := doc
  rcases Descriptor.structural?_eq_ok h with ⟨rfl, rfl⟩ | ⟨members, order, rfl, rfl, hPerm, rfl⟩
  · refine ⟨shape, rfl, ?_, fun _ _ _ => Iff.rfl⟩
    have hWalk : Layout.ofDocument ⟨shape, none⟩ =
        (Layout.walk "" Layout.start shape).entries.reverse := by
      cases shape <;> rfl
    rw [hWalk, Layout.walk_eq, Layout.entries_foldl]
    rfl
  · refine ⟨_, rfl, ?_, fun _ _ _ => Shape.at?_reordered hPerm⟩
    show (Layout.walkMembers "" Layout.start _).entries.reverse = _
    rw [Layout.walkMembers_eq, Layout.entries_foldl]
    rfl

end ShapeDocument

/-- Entries are the layout of a shape and of a type that is built from it. -/
structure Layout.Describes (r : Registry) (shape : Shape) (d : Descriptor)
    (entries : List LayoutEntry) (places : List Place) : Prop where
  /-- The places are the leaves of the shape, -/
  leaves (path : List Step) (type : Descriptor) (width : Width) :
    ⟨path, type, width⟩ ∈ places ↔ shape.at? path = some (.leaf type width)
  /-- each of them once. -/
  nodup : (places.map Place.path).Nodup
  /-- There is an entry for each place, with the keys and positions that lead to it and with the
  name and the number of elements of its type. -/
  entry : List.Forall₂ (fun e p => e.path = p.text ∧ e.typeName = p.type.typeName ∧
    r.width p.type = .ok p.width ∧ e.size = p.width.fields) entries places
  /-- The first entry starts at zero, -/
  first : ∀ e ∈ entries.head?, e.offset = 0
  /-- and each next one where the one before it ends. -/
  next : entries.IsChain fun e e' => e'.offset = e.offset + e.size
  /-- The sizes add up to the size of the type. -/
  total : ∃ width, r.width d = .ok width ∧ totalSize entries = width.fields
  /-- Of the elements of a value, those of an entry are the elements of what the value has at the
  place of the entry. -/
  slices (v : Value) (fields : List Signal) (h : (r.codec d).toFields v = .ok fields) :
    List.Forall₂ (fun e p => ∃ sub, v.at? p.path = some sub ∧
      (r.codec p.type).toFields sub = .ok ((fields.drop e.offset).take e.size)) entries places

/-- The elements of a value at a place of a regular shape are as many as the place takes. -/
theorem Place.Holds.length_eq {r : Registry} {v : Value} {p : Place} {fields : List Signal}
    (h : p.Holds r.names v fields) (hWidth : r.width p.type = .ok p.width) :
    fields.length = p.width.fields := by
  obtain ⟨sub, -, hFlat⟩ := h
  obtain ⟨width, hOwn, hLength⟩ := Codec.length_of_toFields hFlat
  cases hOwn.symm.trans ((Registry.codec_part_width p.type).trans hWidth)
  exact hLength

/-- The layout of a shape document lists the leaves of the shape one after the other, and a value
of the type of the document is flattened to what it has at each of them. The document has each key
once, as documents that were read do. -/
theorem ShapeDocument.layout_describes {r : Registry} {json : Json} (hOrdered : json.Ordered)
    {doc : ShapeDocument} (hParse : ShapeDocument.parse json = .ok doc) {d : Descriptor}
    (hType : doc.descriptor = .ok d) :
    ∃ places, Layout.Describes r doc.shape d (Layout.ofDocument doc) places := by
  obtain ⟨root, rfl, hLayout, hLeaves⟩ := ofDocument_eq hType
  have hRegular : root.Regular r := by
    cases (ShapeDocument.readable hOrdered hParse hType).regular with
    | structural hRoot => exact hRoot
  have hWidths := hRegular.width_at
  rw [hLayout]
  refine ⟨root.places, ?_⟩
  constructor
  case leaves =>
    intro path type width
    rw [hRegular.mem_places, hLeaves]
  case nodup => exact hRegular.nodup_places
  case entry =>
    exact Layout.forall₂_entriesFrom (fun p hp _ => ⟨rfl, rfl, hWidths p hp, rfl⟩) 0
  case first => exact Layout.offset_head_entriesFrom root.places 0
  case next => exact Layout.isChain_entriesFrom root.places 0
  case total =>
    refine ⟨root.width, rfl, ?_⟩
    rw [Layout.totalSize_entriesFrom, Shape.total_places]
  case slices =>
    intro v fields hFields
    obtain ⟨chunks, hChunks, rfl⟩ := root.flatten_places (Codec.flatten_of_toFields hFields)
    have hLengths : ∀ p ∈ root.places, ∀ chunk, p.Holds r.names v chunk →
        chunk.length = p.width.fields := fun p hp _ hHolds => hHolds.length_eq (hWidths p hp)
    exact Layout.slices_entriesFrom hChunks hLengths []

/-! ## A transfer -/

/-- The document of a transfer: who owns it, how much it is, two flags and a memo. -/
private def transfer : Json := .object
  [("order", .array [.string "owner", .string "amount", .string "flags", .string "memo"]),
    ("shape", .object
      [("amount", .string "UInt32"),
        ("flags", .object [("$array", .string "Bool"), ("$length", .nat 2)]),
        ("memo", .object [("$const", .string "transfer")]),
        ("owner", .array [.string "Field", .string "Field"])])]

/-- The shape of a transfer and the order of its keys. -/
private def transferShape : ShapeDocument where
  shape := .object
    [("amount", .ofLeaf .uint32), ("flags", .replicate 2 (.ofLeaf .boolean)),
      ("memo", .constant (.string "transfer")), ("owner", .array [.ofLeaf .field, .ofLeaf .field])]
  order? := some ["owner", "amount", "flags", "memo"]

/-- The type of a transfer. -/
private def transferType : Descriptor := .structural (.object
  [("owner", .array [.ofLeaf .field, .ofLeaf .field]), ("amount", .ofLeaf .uint32),
    ("flags", .replicate 2 (.ofLeaf .boolean)), ("memo", .constant (.string "transfer"))])

private theorem ordered_transfer : transfer.Ordered := by
  have hWords (names : List String) : (Json.array (names.map .string)).Ordered := by
    refine .array fun item hItem => ?_
    obtain ⟨name, -, rfl⟩ := List.mem_map.1 hItem
    exact .string name
  have hFlags : (Json.object [("$array", .string "Bool"), ("$length", .nat 2)]).Ordered := by
    refine .object (show List.Pairwise _ _ by decide) ?_
    exact List.forall_mem_cons.2 ⟨.string _, List.forall_mem_singleton.2 (.number _)⟩
  have hMemo : (Json.object [("$const", .string "transfer")]).Ordered :=
    .object (List.pairwise_singleton _ _) (List.forall_mem_singleton.2 (.string _))
  refine .object (show List.Pairwise _ _ by decide) (List.forall_mem_cons.2 ⟨?_, ?_⟩)
  · exact hWords ["owner", "amount", "flags", "memo"]
  · refine List.forall_mem_singleton.2 (.object (show List.Pairwise _ _ by decide) ?_)
    simp only [List.forall_mem_cons]
    exact ⟨.string _, hFlags, hMemo, hWords ["Field", "Field"], nofun⟩

/-- A transfer of 40 with one of its flags set. -/
private def paid : Value := .record none
  [("amount", .ofElement 40), ("flags", .array [.ofBool true, .ofBool false]),
    ("memo", .primitive (.string "transfer")), ("owner", .array [.ofElement 8, .ofElement 9])]

/-- A transfer has a type, the layout of a transfer describes it, and a transfer is flattened to
what it has at the places of the layout. -/
theorem layout_describes_transfer :
    transfer.Ordered ∧ ShapeDocument.parse transfer = .ok transferShape ∧
      transferShape.descriptor = .ok transferType ∧
      ∃ places, Layout.Describes Registry.empty transferShape.shape transferType
          (Layout.ofDocument transferShape) places ∧
        List.Forall₂ (fun e p => ∃ sub, paid.at? p.path = some sub ∧
            (Registry.empty.codec p.type).toFields sub =
              .ok ((([8, 9, 40, 1, 0] : List Element).map Signal.constant |>.drop e.offset).take
                e.size))
          (Layout.ofDocument transferShape) places := by
  obtain ⟨places, hDescribes⟩ :=
    @ShapeDocument.layout_describes Registry.empty _ ordered_transfer transferShape rfl _ rfl
  exact ⟨ordered_transfer, rfl, rfl, places, hDescribes, hDescribes.slices paid _ rfl⟩

/-- The keys of the outermost object are in the order asked for, and the memo takes nothing. -/
example : Layout.ofDocument transferShape =
    [⟨"/owner/0", "Field", 0, 1⟩, ⟨"/owner/1", "Field", 1, 1⟩, ⟨"/amount", "UInt32", 2, 1⟩,
      ⟨"/flags/0", "Bool", 3, 1⟩, ⟨"/flags/1", "Bool", 4, 1⟩] := rfl

end TypedCircuit
