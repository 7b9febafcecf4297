import TypedCircuit.Proofs.Codec.Canonical
import TypedCircuit.Proofs.Codec.Grounding
import TypedCircuit.Proofs.Codec.Members
import Mathlib.Data.List.Nodup

/-!
# Regular types

A type is *regular* when it is built from the built-in types by arrays, tuples, shapes and
registered types that do not contain themselves, with members of distinct names, and the
leaves of its shapes have the widths their types have. What `Descriptor.structural?` builds
from a regular shape is regular.

Every regular type is lawful, with a law that brings back canonical forms. This is one
induction on the type, with a step for each way to build one; all that is said about
encoding, decoding and checking values of regular types follows from the law.

## Main results

* `Descriptor.Regular.grounded` — the names in a regular type are grounded.
* `Descriptor.Regular.lawful` — the codec of a regular type is lawful.
* `Descriptor.Regular.of_structural?` — a custom order of keys keeps a type regular.
-/

namespace TypedCircuit

mutual

/-- A type that is built without irregularities. -/
inductive Descriptor.Regular (r : Registry) : Descriptor → Prop where
  | leaf (type : Leaf) : Descriptor.Regular r (.leaf type)
  | array {element : Descriptor} (h : Descriptor.Regular r element) (length : Nat) :
    Descriptor.Regular r (.array element length)
  | tuple {elements : List Descriptor} (h : ∀ d ∈ elements, Descriptor.Regular r d) :
    Descriptor.Regular r (.tuple elements)
  | structural {root : Shape} (h : Shape.Regular r root) :
    Descriptor.Regular r (.structural root)
  | composite {name : String} (hNodup : ((r.schema name).map Prod.fst).Nodup)
    (h : ∀ m ∈ r.schema name, Descriptor.Regular r m.2) (json : Bool) :
    Descriptor.Regular r (.composite name json)
  | unregistered (name : String) : Descriptor.Regular r (.unregistered name)
  | plain {inner : Descriptor} (h : Descriptor.Regular r inner) :
    Descriptor.Regular r (.plain inner)

/-- A shape that is built without irregularities. -/
inductive Shape.Regular (r : Registry) : Shape → Prop where
  | leaf {type : Descriptor} {width : Width} (h : Descriptor.Regular r type)
    (hWidth : r.width type = .ok width) : Shape.Regular r (.leaf type width)
  | array {items : List Shape} (h : ∀ s ∈ items, Shape.Regular r s) :
    Shape.Regular r (.array items)
  | object {members : List (String × Shape)} (hNodup : (members.map Prod.fst).Nodup)
    (h : ∀ m ∈ members, Shape.Regular r m.2) : Shape.Regular r (.object members)
  | constant (json : Json) : Shape.Regular r (.constant json)

end

/-! ## Grounded names -/

mutual

/-- The names in a regular type are grounded. -/
theorem Descriptor.Regular.grounded {r : Registry} {d : Descriptor} :
    d.Regular r → ∀ name ∈ d.mentions, r.Grounded name
  | .leaf _, _, h => nomatch h
  | .array hElement _, name, h => hElement.grounded name h
  | .tuple hElements, name, h => by
      obtain ⟨d, hd, hName⟩ := Descriptor.mem_mentionsOfAll.1 h
      exact (hElements d hd).grounded name hName
  | .structural hRoot, name, h => hRoot.grounded name h
  | .composite _ hMembers _, name, h => by
      have hGrounded := Registry.Grounded.of_members fun m hm other hOther =>
        (hMembers m hm).grounded other hOther
      rw [List.mem_singleton.1 h]
      exact hGrounded
  | .unregistered _, _, h => nomatch h
  | .plain hInner, name, h => hInner.grounded name h

/-- The names in a regular shape are grounded. -/
theorem Shape.Regular.grounded {r : Registry} {s : Shape} :
    s.Regular r → ∀ name ∈ s.mentions, r.Grounded name
  | .leaf hType _, name, h => hType.grounded name h
  | .array hItems, name, h => by
      obtain ⟨s, hs, hName⟩ := Shape.mem_mentionsOfItems.1 h
      exact (hItems s hs).grounded name hName
  | .object _ hMembers, name, h => by
      obtain ⟨m, hm, hName⟩ := Shape.mem_mentionsOfMembers.1 h
      exact (hMembers m hm).grounded name hName
  | .constant _, _, h => nomatch h

end

/-! ## Building regular types -/

/-- A custom order of keys keeps a shape regular. -/
theorem Shape.Regular.reordered {r : Registry} {members : List (String × Shape)}
    {order : List String} (hNodup : order.Nodup) (h : ∀ m ∈ members, m.2.Regular r) :
    (Shape.object (order.filterMap fun key =>
      (Entries.find? members key).map (key, ·))).Regular r := by
  refine .object (hNodup.sublist (Entries.names_reordered_sublist members order)) ?_
  intro m hm
  obtain ⟨key, -, hKey⟩ := List.mem_filterMap.1 hm
  obtain ⟨s, hFind, rfl⟩ := Option.map_eq_some_iff.1 hKey
  exact h (key, s) (Entries.mem_of_find? hFind)

/-- A type that is built from a shape is the shape, or an object with its members in the order
of their keys that was asked for. -/
theorem Descriptor.structural?_eq_ok {shape : Shape} {order? : Option (List String)}
    {d : Descriptor} (h : Descriptor.structural? shape order? = .ok d) :
    (order? = none ∧ d = .structural shape) ∨
      ∃ (members : Entries Shape) (order : List String), order? = some order ∧
        shape = .object members ∧ order.Perm members.names ∧
          d = .structural (.object (order.filterMap fun key =>
            (Entries.find? members key).map (key, ·))) := by
  cases order? with
  | none => cases h; exact .inl ⟨rfl, rfl⟩
  | some order =>
      cases shape with
      | object members =>
          unfold Descriptor.structural? at h
          dsimp only at h
          split at h
          · next hNames =>
              cases h
              have hPerm : order.Perm (Entries.names members) :=
                hNames.2 ▸ Entries.perm_nameSet hNames.1
              exact .inr ⟨members, order, rfl, rfl, hPerm, rfl⟩
          · cases h
      | leaf | array | constant => cases h

/-- The type of a regular shape is regular, whatever the order of its keys. -/
theorem Descriptor.Regular.of_structural? {r : Registry} {shape : Shape}
    {order? : Option (List String)} {d : Descriptor} (h : shape.Regular r)
    (hBuilt : Descriptor.structural? shape order? = .ok d) : d.Regular r := by
  rcases Descriptor.structural?_eq_ok hBuilt with ⟨-, rfl⟩ | ⟨members, order, -, rfl, hPerm, rfl⟩
  · exact .structural h
  · cases h with
    | object hNodup hMembers =>
        exact .structural (.reordered (hPerm.nodup_iff.2 hNodup) hMembers)

/-! ## Laws that bring back canonical forms -/

namespace Part

variable {r : Registry} {d : Descriptor}

/-- A part is lawful and brings back the canonical forms of a type. -/
def LawfulFor (r : Registry) (p : Part) (d : Descriptor) : Prop :=
  ∃ width rules, p.Lawful ⟨width, rules, Value.canonical r d, Value.IsCanonical r d⟩

/-- A law brings back the canonical forms of a type. -/
def Law.IsFor (r : Registry) (law : Law) (d : Descriptor) : Prop :=
  law.canonical = Value.canonical r d ∧ law.normal = Value.IsCanonical r d

theorem LawfulFor.of_layer {p : Part} {e : Descriptor} (h : LawfulFor r p d)
    (hLayer : d.layer r = e.layer r) : LawfulFor r p e := by
  unfold LawfulFor at h ⊢
  rwa [Value.canonical_congr hLayer, Value.isCanonical_congr hLayer] at h

theorem exists_laws {parts : List Part} {ds : List Descriptor}
    (h : List.Forall₂ (LawfulFor r) parts ds) :
    ∃ laws, List.Forall₂ Part.Lawful parts laws ∧ List.Forall₂ (Law.IsFor r) laws ds := by
  induction h with
  | nil => exact ⟨[], .nil, .nil⟩
  | cons hHead _ ih =>
      obtain ⟨width, rules, hLaw⟩ := hHead
      obtain ⟨laws, hLaws, hFor⟩ := ih
      exact ⟨_ :: laws, .cons hLaw hLaws, .cons ⟨rfl, rfl⟩ hFor⟩

theorem zipWith_canonical {laws : List Law} {ds : List Descriptor}
    (h : List.Forall₂ (Law.IsFor r) laws ds) (items : List Value) :
    List.zipWith Law.canonical laws items = Value.canonicalItems r ds items := by
  induction h generalizing items with
  | nil => cases items <;> rfl
  | cons hHead _ ih =>
      cases items with
      | nil => rfl
      | cons v items => rw [List.zipWith_cons_cons, ih, hHead.1, Value.canonicalItems]

theorem areCanonical_of_normal {laws : List Law} {ds : List Descriptor} {items : List Value}
    (h : List.Forall₂ (Law.IsFor r) laws ds) (hNormal : List.Forall₂ Law.normal laws items) :
    Value.AreCanonical r ds items := by
  induction h generalizing items with
  | nil => cases hNormal; rw [Value.AreCanonical]; trivial
  | cons hHead _ ih =>
      cases hNormal with
      | cons hv hItems =>
          rw [hHead.2] at hv
          rw [Value.AreCanonical]
          exact ⟨hv, ih hItems⟩

/-- A sequence of parts that bring back canonical forms brings back canonical arrays. -/
theorem Lawful.forSequence {p : Part} {laws : List Law} {ds : List Descriptor}
    (h : p.Lawful (.sequence laws)) (hFor : List.Forall₂ (Law.IsFor r) laws ds)
    (hArray : ∀ v fields, p.flatten v = .ok fields → ∃ items, v = .array items)
    (hLayer : d.layer r = .sequence ds) : LawfulFor r p d := by
  refine ⟨_, _, h.restate ?_ ?_⟩
  · intro v fields hFlat
    obtain ⟨items, rfl⟩ := hArray v fields hFlat
    rw [Value.canonical_array hLayer, ← zipWith_canonical hFor]
    rfl
  · rintro v ⟨items, rfl, hItems⟩
    rw [Value.IsCanonical, hLayer]
    exact areCanonical_of_normal hFor hItems

theorem array_of_flatten {typeName : String} {parts : List Part} {v : Value}
    {fields : List Signal} (h : (sequence typeName parts).flatten v = .ok fields) :
    ∃ items, v = .array items := by
  obtain ⟨items, hItems, -⟩ := bind_eq_ok.1 h
  exact ⟨items, (expectItems_eq_ok.1 hItems).1⟩

theorem lawfulFor_sequence {parts : List Part} {ds : List Descriptor}
    (h : List.Forall₂ (LawfulFor r) parts ds) (hLayer : d.layer r = .sequence ds)
    (typeName : String) : LawfulFor r (sequence typeName parts) d := by
  obtain ⟨laws, hLaws, hFor⟩ := exists_laws h
  exact (lawful_sequence hLaws typeName).forSequence hFor (fun _ _ => array_of_flatten) hLayer

theorem lawfulFor_replicated {p : Part} {element : Descriptor} (h : LawfulFor r p element)
    {count : Nat} (hLayer : d.layer r = .sequence (List.replicate count element))
    (typeName : String) : LawfulFor r (replicated typeName p count) d := by
  obtain ⟨width, rules, hLaw⟩ := h
  refine (lawful_replicated hLaw typeName count).forSequence ?_ ?_ hLayer
  · exact forall₂_replicate ⟨rfl, rfl⟩ count
  · intro v fields hFlat
    rw [replicated_flatten] at hFlat
    exact array_of_flatten hFlat

theorem lawfulFor_constant {json : Json} (hLayer : d.layer r = .constant json)
    (typeName : String) : LawfulFor r (constant typeName json) d := by
  have hOpen : ∀ {v fields}, (constant typeName json).flatten v = .ok fields →
      fields = [] ∧ expectConstant typeName json v = .ok () := by
    intro v fields hFlat
    obtain ⟨_, hv, rfl⟩ := map_eq_ok.1 hFlat
    exact ⟨rfl, hv⟩
  have hSelf : expectConstant typeName json (.primitive json) = .ok () := by
    show (if json == json then _ else _) = _
    rw [if_pos (beq_self_eq_true json)]
  refine ⟨Width.zero, [], rfl, rfl, ?_, fun _ => rfl, fun _ => nofun, ?_, ?_, ?_⟩
  · intro v fields hFlat
    rw [(hOpen hFlat).1]
    rfl
  · intro v fields hFlat
    show (liftM (expectConstant typeName json v) : Circuit Unit) = _
    rw [(hOpen hFlat).2]
    rfl
  · intro v fields hFlat
    exact congrArg Except.ok (Value.canonical_constant hLayer v).symm
  · intro fields aux hFields hAux hHost
    obtain rfl := List.length_eq_zero_iff.1 hFields
    obtain rfl := List.length_eq_zero_iff.1 hAux
    refine ⟨.primitive json, rfl, ?_, rfl, ?_⟩
    · show (expectConstant typeName json (.primitive json)).map _ = _
      rw [hSelf]
      rfl
    · show Value.IsCanonical r d (.primitive json)
      rw [Value.IsCanonical, hLayer]
      exact beq_self_eq_true json

/-! ## Keyed structures -/

theorem find?_zip_canonicalItems {members : List (String × Descriptor)}
    {entries : Entries Value} {items : List Value}
    (h : List.Forall₂ (fun key v => entries.find? key = some v) (members.map Prod.fst) items)
    (name : String) :
    Entries.find? ((members.map Prod.fst).zip
        (Value.canonicalItems r (members.map Prod.snd) items)) name =
      (Entries.find? members name).bind fun d =>
        (entries.find? name).map (Value.canonical r d) := by
  induction members generalizing items with
  | nil => rfl
  | cons m rest ih =>
      obtain ⟨key, d⟩ := m
      cases h with
      | cons hHead hRest =>
          rw [List.map_cons, List.map_cons, Value.canonicalItems, List.zip_cons_cons,
            Entries.find?_cons, Entries.find?_cons]
          by_cases hKey : key = name
          · subst hKey
            rw [if_pos rfl, if_pos rfl, hHead]
            rfl
          · rw [if_neg hKey, if_neg hKey]
            exact ih hRest

theorem canonicalItems_length {ds : List Descriptor} {items : List Value}
    (h : ds.length = items.length) : (Value.canonicalItems r ds items).length = ds.length := by
  induction ds generalizing items with
  | nil => cases items <;> rfl
  | cons d rest ih =>
      cases items with
      | nil => cases h
      | cons v items =>
          rw [Value.canonicalItems, List.length_cons, List.length_cons, ih (Nat.succ.inj h)]

/-- The canonical items of the members that were found are the canonical members. -/
theorem ofList_canonicalItems {members : List (String × Descriptor)} {entries : Entries Value}
    {items : List Value} (hNodup : (members.map Prod.fst).Nodup)
    (h : List.Forall₂ (fun key v => entries.find? key = some v) (members.map Prod.fst) items) :
    Entries.ofList ((members.map Prod.fst).zip
        (Value.canonicalItems r (members.map Prod.snd) items)) =
      Value.canonicalMembers r members entries := by
  have hLength : (members.map Prod.fst).length =
      (Value.canonicalItems r (members.map Prod.snd) items).length := by
    rw [canonicalItems_length, List.length_map, List.length_map]
    rw [← h.length_eq, List.length_map, List.length_map]
  refine Entries.Sorted.ext (Entries.sorted_ofList _) (Value.sorted_canonicalMembers _ _) ?_
  intro name
  rw [Entries.find?_ofList, find?_zip_canonicalItems h, Value.find?_canonicalMembers]
  rwa [Entries.names_zip hLength]

theorem membersCanonical_of_forall {members : List (String × Descriptor)}
    {entries : List (String × Value)}
    (h : ∀ entry ∈ entries, ∃ d, Entries.find? members entry.1 = some d ∧
      Value.IsCanonical r d entry.2) : Value.MembersCanonical r members entries := by
  induction entries with
  | nil => rw [Value.MembersCanonical]; trivial
  | cons entry rest ih =>
      rw [Value.MembersCanonical]
      exact ⟨h entry List.mem_cons_self, ih fun other hOther => h other (.tail _ hOther)⟩

theorem exists_type_of_find?_zip {members : List (String × Descriptor)} {items : List Value}
    (h : Value.AreCanonical r (members.map Prod.snd) items) {name : String} {v : Value}
    (hFind : Entries.find? ((members.map Prod.fst).zip items) name = some v) :
    ∃ d, Entries.find? members name = some d ∧ Value.IsCanonical r d v := by
  induction members generalizing items with
  | nil => cases hFind
  | cons m rest ih =>
      obtain ⟨key, d⟩ := m
      cases items with
      | nil => cases hFind
      | cons item items =>
          rw [List.map_cons, Value.AreCanonical] at h
          rw [List.map_cons, List.zip_cons_cons, Entries.find?_cons] at hFind
          rw [Entries.find?_cons]
          by_cases hKey : key = name
          · rw [if_pos hKey] at hFind ⊢
            cases hFind
            exact ⟨d, rfl, h.1⟩
          · rw [if_neg hKey] at hFind ⊢
            exact ih h.2 hFind

theorem areCanonical_length {ds : List Descriptor} {items : List Value}
    (h : Value.AreCanonical r ds items) : ds.length = items.length := by
  induction ds generalizing items with
  | nil =>
      cases items with
      | nil => rfl
      | cons => exact h.elim
  | cons d rest ih =>
      cases items with
      | nil => exact h.elim
      | cons v items =>
          rw [Value.AreCanonical] at h
          exact congrArg Nat.succ (ih h.2)

/-- A record of canonical items under distinct names is canonical. -/
theorem isCanonical_ofList {members : List (String × Descriptor)} {tag? : Option String}
    (hLayer : d.layer r = .record tag? members) (hNodup : (members.map Prod.fst).Nodup)
    {items : List Value} (h : Value.AreCanonical r (members.map Prod.snd) items) :
    Value.IsCanonical r d
      (.record tag? (Entries.ofList ((members.map Prod.fst).zip items))) := by
  have hLength : (members.map Prod.fst).length = items.length := by
    rw [List.length_map, ← areCanonical_length h, List.length_map]
  have hFind : ∀ name, Entries.find? (Entries.ofList ((members.map Prod.fst).zip items)) name =
      Entries.find? ((members.map Prod.fst).zip items) name := by
    intro name
    rw [Entries.find?_ofList]
    rwa [Entries.names_zip hLength]
  rw [Value.IsCanonical, hLayer]
  refine ⟨rfl, Entries.sorted_ofList _, fun name => ?_, membersCanonical_of_forall ?_⟩
  · have hNone := Entries.find?_eq_none_iff.symm.trans
      ((Iff.of_eq (congrArg (· = none) (hFind name))).trans Entries.find?_eq_none_iff)
    rw [Entries.names_zip hLength] at hNone
    exact not_iff_not.1 hNone
  · intro entry hEntry
    have hEntryFind := Entries.find?_of_mem (Entries.sorted_ofList _) hEntry
    rw [hFind] at hEntryFind
    exact exists_type_of_find?_zip h hEntryFind

/-- A keyed structure of parts that bring back canonical forms brings back canonical
records. -/
theorem Keyed.lawfulFor {p : Part} {members : List (String × Part)} {tag? : Option String}
    {lookup : Value → Lookup} (hp : p.Keyed members tag? lookup)
    {types : List (String × Descriptor)} (hKeys : members.map Prod.fst = types.map Prod.fst)
    (h : List.Forall₂ (LawfulFor r) (members.map Prod.snd) (types.map Prod.snd))
    (hNodup : (types.map Prod.fst).Nodup) (hLayer : d.layer r = .record tag? types)
    (hOpen : ∀ v key item, lookup v key = .ok item →
      ∃ (tag? : Option String) (entries : Entries Value),
        v = .record tag? entries ∧ entries.find? key = some item) : LawfulFor r p d := by
  obtain ⟨laws, hLaws, hFor⟩ := exists_laws h
  refine ⟨_, _, (hp.lawful hLaws (hKeys ▸ hNodup)).restate ?_ ?_⟩
  · intro v fields hFlat
    rw [hp.flatten_eq] at hFlat
    obtain ⟨items, hItems, -⟩ := flattenMembers_eq_ok.1 hFlat
    rw [Law.keyed_canonical hItems, zipWith_canonical hFor, hKeys]
    rw [hKeys] at hItems
    by_cases hEmpty : types.map Prod.fst = []
    · obtain rfl := List.map_eq_nil_iff.1 hEmpty
      rw [Value.canonical_empty hLayer]
      rfl
    · obtain ⟨_, entries, rfl, hFinds⟩ := hItems.in_record hEmpty (hOpen v)
      rw [Value.canonical_record hLayer, ofList_canonicalItems hNodup hFinds]
  · rintro v ⟨items, rfl, hItems⟩
    rw [hKeys]
    exact isCanonical_ofList hLayer hNodup (areCanonical_of_normal hFor hItems)

end Part

/-! ## Regular types are lawful -/

theorem Registry.codec_part_width {r : Registry} (d : Descriptor) :
    (r.codec d).part.width () = r.width d := Descriptor.codec_width r.names d

namespace Part

variable {r : Registry} {d : Descriptor}

theorem LawfulFor.ofPart {p : Part} (h : LawfulFor r p d) (capabilities : Capabilities) :
    LawfulFor r (Codec.ofPart p capabilities).part d := by
  obtain ⟨width, rules, hLaw⟩ := h
  exact ⟨width, rules, Codec.lawful_ofPart hLaw capabilities⟩

/-- Codecs at the positions of a sequence. -/
theorem forall₂_lawfulFor_map {α : Type} {p : α → Part} {type : α → Descriptor}
    {xs : List α} (h : ∀ x ∈ xs, LawfulFor r (p x) (type x)) :
    List.Forall₂ (LawfulFor r) (xs.map p) (xs.map type) := by
  rw [List.forall₂_map_left_iff, List.forall₂_map_right_iff, List.forall₂_same]
  exact h

/-- A composite of members that bring back canonical forms does so. -/
theorem lawfulFor_composite {name : String} {members : List (String × Descriptor)}
    (hNodup : (members.map Prod.fst).Nodup)
    (h : ∀ m ∈ members, LawfulFor r (r.codec m.2).part m.2)
    (hLayer : d.layer r = .record (some name) members) (json : Bool) :
    LawfulFor r
      (Codec.composite name json (members.map fun m => (m.1, r.codec m.2))).part d := by
  have hKeyed := Codec.keyed_composite name json (members.map fun m => (m.1, r.codec m.2))
  obtain ⟨width, rules, hLaw⟩ : LawfulFor r (Codec.uncounted _) d := by
    refine hKeyed.lawfulFor ?_ ?_ hNodup hLayer ?_
    · rw [Codec.memberParts, List.map_map, List.map_map]
      rfl
    · rw [Codec.memberParts, List.map_map, List.map_map]
      exact forall₂_lawfulFor_map h
    · intro v key item hItem
      obtain ⟨entries, hEntries, hFind⟩ := Codec.lookupIn_eq_ok.1 hItem
      obtain ⟨tag?, hRecord⟩ := Codec.record_of_expectRecord hEntries
      exact ⟨tag?, entries, hRecord, hFind⟩
  exact ⟨width, rules, Codec.lawful_part hLaw⟩

/-- A leaf of a shape keeps the width of its type. -/
theorem LawfulFor.withWidth {p : Part} {width : Width} (h : LawfulFor r p d)
    (hWidth : p.width () = .ok width) :
    LawfulFor r { p with width := fun _ => .ok width } d := by
  obtain ⟨w, rules, hLaw⟩ := h
  exact ⟨w, rules, hLaw.of_agree hWidth.symm (fun _ _ => Iff.rfl) (fun _ _ _ => ⟨rfl, rfl⟩)
    fun _ _ _ _ => rfl⟩

end Part

mutual

/-- The codec of a regular type is lawful and brings back canonical forms. -/
theorem Descriptor.Regular.lawful {r : Registry} {d : Descriptor} :
    d.Regular r → Part.LawfulFor r (r.codec d).part d
  | .leaf type =>
      ⟨_, _, type.lawful.restate (fun v _ _ => (Value.canonical_atom rfl v).symm)
        fun v _ => Value.isCanonical_atom rfl v⟩
  | .array hElement _ => (Part.lawfulFor_replicated hElement.lawful rfl _).ofPart _
  | .tuple hElements => by
      have hCodecs := Part.forall₂_lawfulFor_map fun d hd => (hElements d hd).lawful
      rw [Registry.codec, Descriptor.codec_tuple]
      refine (Part.lawfulFor_sequence ?_ rfl _).ofPart _
      rw [List.map_map]
      rwa [List.map_id'] at hCodecs
  | .structural hRoot => hRoot.lawful.ofPart _
  | .composite hNodup hMembers json => by
      have hGrounded := Registry.Grounded.of_members fun m hm => (hMembers m hm).grounded
      rw [Registry.codec_composite hGrounded]
      exact Part.lawfulFor_composite hNodup (fun m hm => (hMembers m hm).lawful) rfl json
  | .unregistered _ => by
      have hNone : ∀ m ∈ ([] : List (String × Descriptor)),
          Part.LawfulFor r (r.codec m.2).part m.2 := nofun
      refine Part.lawfulFor_composite ?_ hNone rfl true
      exact List.nodup_nil
  | .plain hInner => by
      obtain ⟨width, rules, hLaw⟩ := hInner.lawful
      exact Part.LawfulFor.of_layer ⟨width, rules, Codec.lawful_plain hLaw _⟩ rfl

/-- The part of a regular shape is lawful and brings back canonical forms. -/
theorem Shape.Regular.lawful {r : Registry} {s : Shape} :
    s.Regular r → Part.LawfulFor r (s.part r.names) (.structural s)
  | .leaf hType hWidth =>
      (hType.lawful.withWidth ((Registry.codec_part_width _).trans hWidth)).of_layer rfl
  | .array hItems => by
      have hParts := Part.forall₂_lawfulFor_map fun s hs => (hItems s hs).lawful
      rw [Shape.part_array]
      exact Part.lawfulFor_sequence hParts rfl _
  | .object hNodup hMembers => by
      have hParts := Part.forall₂_lawfulFor_map fun m hm => (hMembers m hm).lawful
      rw [Shape.part_object]
      refine (Part.keyed_object _ _).lawfulFor ?_ ?_ ?_ rfl fun v key item hItem =>
        Part.lookupKey_eq_ok.1 hItem
      · rw [List.map_map, List.map_map]
        rfl
      · rw [List.map_map, List.map_map]
        exact hParts
      · rw [List.map_map]
        exact hNodup
  | .constant _ => Part.lawfulFor_constant rfl _

end

end TypedCircuit
