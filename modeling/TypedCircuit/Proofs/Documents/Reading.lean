import TypedCircuit.Proofs.Circuit.Checked
import TypedCircuit.Proofs.Codec.Regular

/-!
# Values that are read from documents

A part that has documents reads every document: it gives a value or finds that the document has
another form, and it never fails. A value it gives is made of constants, stands in the form in
which values come back from their elements, and has elements as the rules of the part say. So
nothing that is done with the value later can go wrong, whatever the document was.

As with the other laws, what is said of a larger part is put together from what is said of the
parts inside it, once for the parts that visit positions and once for those that visit members.

## Main results

* `Value.Settled.sameValue_self` — a value made of constants has the value it has.
* `Part.reads_sequence`, `Part.reads_replicated`, `Part.Keyed.reads` — larger parts read documents
  if the parts inside them do.
* `Leaf.reads`, `Part.documented_constant` — so do the built-in types that have documents, and
  constants.
-/

namespace TypedCircuit

/-! ## Values made of constants -/

/-- A value made of constants, of which the records have their members in order. -/
inductive Value.Settled : Value → Prop where
  | element (x : Element) : Value.Settled (.ofElement x)
  | truth (b : Bool) : Value.Settled (.ofBool b)
  | array {items : List Value} (h : ∀ v ∈ items, Value.Settled v) : Value.Settled (.array items)
  | record {tag? : Option String} {members : List (String × Value)}
    (hSorted : Entries.Sorted members) (h : ∀ m ∈ members, Value.Settled m.2) :
    Value.Settled (.record tag? members)
  | primitive (json : Json) : Value.Settled (.primitive json)

namespace Value

theorem sameItems_self {items : List Value} (h : ∀ v ∈ items, v.sameValue v = .ok true) :
    sameItems items items = .ok true := by
  induction items with
  | nil => rfl
  | cons v rest ih =>
      rw [sameItems, h v List.mem_cons_self]
      exact ih fun w hw => h w (List.mem_cons_of_mem v hw)

theorem sameMembers_self {entries : Entries Value} (hSorted : entries.Sorted)
    {members : List (String × Value)} (hMembers : ∀ m ∈ members, m ∈ entries)
    (h : ∀ m ∈ members, m.2.sameValue m.2 = .ok true) :
    sameMembers members entries = .ok true := by
  induction members with
  | nil => rfl
  | cons m rest ih =>
      obtain ⟨name, v⟩ := m
      have hFind : entries.find? name = some v :=
        Entries.find?_of_mem hSorted (hMembers (name, v) List.mem_cons_self)
      have hSame : v.sameValue v = .ok true := h (name, v) List.mem_cons_self
      rw [sameMembers, hFind]
      dsimp only
      rw [hSame]
      exact ih (fun m hm => hMembers m (List.mem_cons_of_mem _ hm))
        fun m hm => h m (List.mem_cons_of_mem _ hm)

/-- A value made of constants has the value it has. -/
theorem Settled.sameValue_self {v : Value} : v.Settled → v.sameValue v = .ok true
  | .element x => by
      show Except.ok (x == x) = _
      rw [beq_self_eq_true]
  | .truth b => by cases b <;> rfl
  | .array h => by
      rw [sameValue, if_neg (not_not_intro rfl)]
      exact sameItems_self fun v hv => (h v hv).sameValue_self
  | .record hSorted h => by
      rw [sameValue, if_neg (by simp)]
      exact sameMembers_self hSorted (fun _ => id) fun m hm => (h m hm).sameValue_self
  | .primitive json => congrArg Except.ok (beq_self_eq_true json)

end Value

/-! ## Reading -/

namespace Part

/-- A value is made of constants that are as the rules of a part say, and stands in the form in
which values come back. -/
structure Settles (p : Part) (law : Law) (v : Value) : Prop where
  settled : v.Settled
  canonical_eq : law.canonical v = v
  flattens : ∃ xs : List Element, p.flatten v = .ok (xs.map .constant) ∧ RulesHold law.rules xs

/-- A part reads a value from some document. -/
def Decodes (p : Part) (v : Value) : Prop := ∃ json, p.decode json = .ok (some v)

/-- A part reads every document, and settles the values it reads. -/
structure Reads (p : Part) (law : Law) : Prop where
  total (json : Json) : ∃ v?, p.decode json = .ok v?
  settles {v : Value} (h : p.Decodes v) : p.Settles law v

variable {p : Part} {law : Law} {parts : List Part} {laws : List Law}

/-- A part that reads the same documents, and flattens what they are read as alike, reads them by
the same law. -/
theorem Reads.of_agree {q : Part} (h : p.Reads law) (hDecode : q.decode = p.decode)
    (hFlatten : ∀ v fields, p.flatten v = .ok fields → q.flatten v = .ok fields) :
    q.Reads law where
  total json := by
    rw [hDecode]
    exact h.total json
  settles {v} hv := by
    have hOld : p.Decodes v := by
      obtain ⟨json, hJson⟩ := hv
      exact ⟨json, hDecode ▸ hJson⟩
    obtain ⟨hSettled, hCanonical, xs, hFlat, hHolds⟩ := h.settles hOld
    exact ⟨hSettled, hCanonical, xs, hFlatten _ _ hFlat, hHolds⟩

/-! ## One part after the other -/

theorem total_of_mem (h : List.Forall₂ Reads parts laws) (hp : p ∈ parts) (json : Json) :
    ∃ v?, p.decode json = .ok v? := by
  obtain ⟨i, hi, rfl⟩ := List.getElem_of_mem hp
  exact (h.get hi (h.length_eq ▸ hi)).total json

/-- Items that are read by their parts are settled one by one, and so are they all. -/
theorem settles_items (h : List.Forall₂ Reads parts laws) {items : List Value}
    (hItems : List.Forall₂ Decodes parts items) :
    (∀ v ∈ items, v.Settled) ∧ List.zipWith Law.canonical laws items = items ∧
      ∃ xs : List Element, flattenAll parts items = .ok (xs.map .constant) ∧
        RulesHold (laws.flatMap Law.rules) xs := by
  induction h generalizing items with
  | nil =>
      cases hItems
      exact ⟨List.forall_mem_nil _, rfl, [], rfl, .nil⟩
  | @cons p law parts laws hHead _ ih =>
      cases hItems with
      | @cons _ v _ items hv hRest =>
          obtain ⟨hSettled, hCanonical, xs, hFlat, hHolds⟩ := hHead.settles hv
          obtain ⟨hAllSettled, hAllCanonical, ys, hAllFlat, hAllHold⟩ := ih hRest
          refine ⟨List.forall_mem_cons.2 ⟨hSettled, hAllSettled⟩, ?_, xs ++ ys, ?_, ?_⟩
          · rw [List.zipWith_cons_cons, hCanonical, hAllCanonical]
          · refine flattenAll_cons.2 ⟨_, _, hFlat, hAllFlat, ?_⟩
            rw [List.map_append]
          · exact List.rel_append hHolds hAllHold

theorem decodeAll_total (h : ∀ p ∈ parts, ∀ json, ∃ v?, p.decode json = .ok v?)
    (documents : List Json) : ∃ items?, decodeAll parts documents = .ok items? :=
  mapM_total fun pair hPair => h pair.1 (List.of_mem_zip hPair).1 pair.2

/-- Items that come of as many documents as there are parts are read by their parts. -/
theorem decodes_of_decodeAll {documents : List Json} (hLength : documents.length = parts.length)
    {items : List Value} (h : decodeAll parts documents = .ok (some items)) :
    List.Forall₂ Decodes parts items := by
  have hItems := mapM_eq_some.1 h
  clear h
  induction parts generalizing documents items with
  | nil =>
      cases hItems
      exact .nil
  | cons p parts ih =>
      cases documents with
      | nil => cases hLength
      | cons json documents =>
          cases hItems with
          | cons hv hRest => exact .cons ⟨json, hv⟩ (ih (Nat.succ.inj hLength) hRest)

theorem decodeItems_total (h : ∀ p ∈ parts, ∀ json, ∃ v?, p.decode json = .ok v?)
    (json : Json) : ∃ v?, decodeItems parts json = .ok v? := by
  unfold decodeItems
  cases json.array? with
  | none => exact ⟨none, rfl⟩
  | some documents =>
      dsimp only
      by_cases hLength : documents.length = parts.length
      · obtain ⟨items?, hItems⟩ := decodeAll_total h documents
        rw [if_pos hLength, hItems]
        exact ⟨_, rfl⟩
      · rw [if_neg hLength]
        exact ⟨none, rfl⟩

/-- What comes of an array of documents is the array of what comes of its items. -/
theorem decodes_of_decodeItems {json : Json} {v : Value}
    (h : decodeItems parts json = .ok (some v)) :
    ∃ items, v = .array items ∧ List.Forall₂ Decodes parts items := by
  unfold decodeItems at h
  cases hArray : json.array? with
  | none =>
      rw [hArray] at h
      cases h
  | some documents =>
      rw [hArray] at h
      dsimp only at h
      by_cases hLength : documents.length = parts.length
      · rw [if_pos hLength] at h
        obtain ⟨items?, hItems, hEq⟩ := map_eq_ok.1 h
        obtain ⟨items, rfl, rfl⟩ := Option.map_eq_some_iff.1 hEq
        exact ⟨items, rfl, decodes_of_decodeAll hLength hItems⟩
      · rw [if_neg hLength] at h
        cases h

/-- A sequence of parts that read documents reads arrays of documents. -/
theorem reads_sequence (h : List.Forall₂ Reads parts laws) (typeName : String) :
    (sequence typeName parts).Reads (.sequence laws) where
  total json := decodeItems_total (fun _ hp => total_of_mem h hp) json
  settles {v} hv := by
    obtain ⟨json, hJson⟩ := hv
    obtain ⟨items, rfl, hItems⟩ := decodes_of_decodeItems hJson
    obtain ⟨hSettled, hCanonical, xs, hFlat, hHolds⟩ := settles_items h hItems
    refine ⟨.array hSettled, congrArg Value.array hCanonical, xs, ?_, hHolds⟩
    show (expectItems typeName parts.length (.array items) >>= flattenAll parts) = _
    rw [expectItems_eq_ok.2 ⟨rfl, hItems.length_eq.symm⟩]
    exact hFlat

/-- Copies of a part that reads documents read arrays of documents. -/
theorem reads_replicated (h : p.Reads law) (typeName : String) (count : Nat) :
    (replicated typeName p count).Reads (.sequence (List.replicate count law)) := by
  have hAll : List.Forall₂ Reads (List.replicate count p) (List.replicate count law) :=
    forall₂_replicate h count
  refine (reads_sequence hAll typeName).of_agree (replicated_decode p typeName count)
    fun v fields hFlat => ?_
  rw [replicated_flatten]
  exact hFlat

/-! ## Members -/

/-- Reads the members of a record of the given type from those of a document. -/
def decodeRecord (tag? : Option String) (members : List (String × Part)) (json : Json) :
    Except Error (Option Value) :=
  match json.object? with
  | some document => (decodeMembers members document).map fun r? => r?.map (.record tag?)
  | none => .ok none

theorem decodeMembers_total {members : List (String × Part)}
    (h : ∀ m ∈ members, ∀ json, ∃ v?, m.2.decode json = .ok v?) (document : Entries Json) :
    ∃ entries?, decodeMembers members document = .ok entries? := by
  refine bind_total (mapM_total fun m hm => ?_) fun _ => ⟨_, rfl⟩
  exact bind_total ⟨_, rfl⟩ fun json => bind_total (h m hm json) fun _ => ⟨_, rfl⟩

/-- The members that come of a document are read by their parts, and stand under their names. -/
theorem decodes_of_decodeMembers {members : List (String × Part)} {document : Entries Json}
    {entries : Entries Value} (h : decodeMembers members document = .ok (some entries)) :
    ∃ items, List.Forall₂ Decodes (members.map Prod.snd) items ∧
      entries = Entries.ofList ((members.map Prod.fst).zip items) := by
  obtain ⟨decoded, hDecoded, hEq⟩ := bind_eq_some.1 h
  cases hEq
  suffices hAll : ∃ items, List.Forall₂ Decodes (members.map Prod.snd) items ∧
      decoded = (members.map Prod.fst).zip items by
    obtain ⟨items, hItems, rfl⟩ := hAll
    exact ⟨items, hItems, rfl⟩
  have hMembers := mapM_eq_some.1 hDecoded
  clear hDecoded h
  induction hMembers with
  | nil => exact ⟨[], .nil, rfl⟩
  | @cons m entry members decoded hHead _ ih =>
      obtain ⟨items, hItems, rfl⟩ := ih
      obtain ⟨json, -, hHead⟩ := bind_eq_some.1 hHead
      obtain ⟨v, hv, hEntry⟩ := bind_eq_some.1 hHead
      cases hEntry
      exact ⟨v :: items, .cons ⟨json, hv⟩ hItems, rfl⟩

/-- A keyed structure of parts that read documents reads records. -/
theorem Keyed.reads {members : List (String × Part)} {tag? : Option String}
    {lookup : Value → Lookup} (hp : p.Keyed members tag? lookup)
    (hDecode : p.decode = decodeRecord tag? members)
    (h : List.Forall₂ Reads (members.map Prod.snd) laws)
    (hNodup : (members.map Prod.fst).Nodup) :
    p.Reads (.keyed tag? lookup (members.map Prod.fst) laws) where
  total json := by
    rw [hDecode]
    unfold decodeRecord
    cases json.object? with
    | none => exact ⟨none, rfl⟩
    | some document =>
        have hTotal : ∀ m ∈ members, ∀ json, ∃ v?, m.2.decode json = .ok v? :=
          fun m hm => total_of_mem h (List.mem_map_of_mem hm)
        obtain ⟨entries?, hEntries⟩ := decodeMembers_total hTotal document
        dsimp only
        rw [hEntries]
        exact ⟨_, rfl⟩
  settles {v} hv := by
    obtain ⟨json, hJson⟩ := hv
    rw [hDecode] at hJson
    unfold decodeRecord at hJson
    cases hObject : json.object? with
    | none =>
        rw [hObject] at hJson
        cases hJson
    | some document =>
        rw [hObject] at hJson
        obtain ⟨entries?, hEntries, hEq⟩ := map_eq_ok.1 hJson
        obtain ⟨entries, rfl, rfl⟩ := Option.map_eq_some_iff.1 hEq
        obtain ⟨items, hItems, rfl⟩ := decodes_of_decodeMembers hEntries
        obtain ⟨hSettled, hCanonical, xs, hFlat, hHolds⟩ := settles_items h hItems
        have hLength : (members.map Prod.fst).length = items.length := by
          rw [← hItems.length_eq, List.length_map, List.length_map]
        have hFinds := hp.finds_rebuilt hNodup hLength
        refine ⟨.record (Entries.sorted_ofList _) fun m hm => ?_, ?_, xs, ?_, hHolds⟩
        · exact hSettled m.2 (List.of_mem_zip (Entries.mem_ofList hm)).2
        · rw [Law.keyed_canonical hFinds, hCanonical]
        · rw [hp.flatten_eq]
          exact flattenMembers_eq_ok.2 ⟨items, hFinds, hFlat⟩

/-! ## Parts that have documents -/

/-- A part is lawful and reads documents by its law. -/
def Documented (p : Part) : Prop := ∃ law, p.Lawful law ∧ p.Reads law

theorem exists_documented_laws (h : ∀ p ∈ parts, p.Documented) :
    ∃ laws, List.Forall₂ Part.Lawful parts laws ∧ List.Forall₂ Reads parts laws := by
  obtain ⟨laws, hLaws⟩ := exists_forall₂ h
  exact ⟨laws, hLaws.imp fun _ _ hp => hp.1, hLaws.imp fun _ _ hp => hp.2⟩

theorem documented_sequence (h : ∀ p ∈ parts, p.Documented) (typeName : String) :
    (sequence typeName parts).Documented := by
  obtain ⟨laws, hLawful, hReads⟩ := exists_documented_laws h
  exact ⟨_, lawful_sequence hLawful typeName, reads_sequence hReads typeName⟩

theorem Documented.replicated (h : p.Documented) (typeName : String) (count : Nat) :
    (replicated typeName p count).Documented := by
  obtain ⟨law, hLawful, hReads⟩ := h
  exact ⟨_, lawful_replicated hLawful typeName count, reads_replicated hReads typeName count⟩

theorem Keyed.documented {members : List (String × Part)} {tag? : Option String}
    {lookup : Value → Lookup} (hp : p.Keyed members tag? lookup)
    (hDecode : p.decode = decodeRecord tag? members) (h : ∀ m ∈ members, m.2.Documented)
    (hNodup : (members.map Prod.fst).Nodup) : p.Documented := by
  have hParts : ∀ q ∈ members.map Prod.snd, q.Documented := by
    intro q hq
    obtain ⟨m, hm, rfl⟩ := List.mem_map.1 hq
    exact h m hm
  obtain ⟨laws, hLawful, hReads⟩ := exists_documented_laws hParts
  exact ⟨_, hp.lawful hLawful hNodup, hp.reads hDecode hReads hNodup⟩

/-- A constant is read from the documents that equal it. -/
theorem documented_constant (typeName : String) (json : Json) :
    (constant typeName json).Documented := by
  obtain ⟨width, rules, hLaw⟩ :=
    lawfulFor_constant (r := .empty) (d := .structural (.constant json)) rfl typeName
  have hWidth : width = Width.zero := (Except.ok.inj hLaw.width_eq).symm
  have hRules : rules = [] :=
    List.length_eq_zero_iff.1 (hLaw.rules_length.trans (congrArg Width.fields hWidth))
  refine ⟨_, hLaw, fun document => ⟨_, rfl⟩, fun {v} hv => ?_⟩
  obtain ⟨document, hDocument⟩ := hv
  have hFound : v = .primitive json := by
    have hSome : (if document == json then some (Value.primitive json) else none) = some v :=
      Except.ok.inj hDocument
    split at hSome
    · exact (Option.some.inj hSome).symm
    · cases hSome
  subst hFound
  refine ⟨.primitive json, Value.canonical_constant rfl _, [], ?_, hRules ▸ .nil⟩
  show (if json == json then Except.ok () else _).map _ = _
  rw [if_pos (beq_self_eq_true json)]
  rfl

/-- A part keeps its documents under another width that is right. -/
theorem Documented.withWidth {width : Width} (h : p.Documented)
    (hWidth : p.width () = .ok width) :
    Documented { p with width := fun _ => .ok width } := by
  obtain ⟨law, hLawful, hReads⟩ := h
  refine ⟨law, hLawful.of_agree hWidth.symm (fun _ _ => Iff.rfl) (fun _ _ _ => ⟨rfl, rfl⟩)
    fun _ _ _ _ => rfl, hReads.of_agree rfl fun _ _ => id⟩

end Part

/-! ## Codecs that have documents -/

namespace Codec

variable {c : Codec} {law : Part.Law}

theorem fromJson_eq (h : c.capabilities.json = true) : c.fromJson = c.decode := by
  funext json
  unfold fromJson
  rw [if_pos h]

/-- A lawful codec with documents reads them at a position. -/
theorem reads_part (hJson : c.capabilities.json = true) (hLawful : c.uncounted.Lawful law)
    (hReads : c.uncounted.Reads law) : c.part.Reads law :=
  hReads.of_agree (fromJson_eq hJson) fun _ _ hFlat => (toFields_eq_ok hLawful).2 hFlat

theorem documented_part (hJson : c.capabilities.json = true) (h : c.uncounted.Documented) :
    c.part.Documented := by
  obtain ⟨law, hLawful, hReads⟩ := h
  exact ⟨law, lawful_part hLawful, reads_part hJson hLawful hReads⟩

theorem documented_ofPart {p : Part} (h : p.Documented) {capabilities : Capabilities}
    (hJson : capabilities.json = true) : (ofPart p capabilities).part.Documented := by
  obtain ⟨law, hLawful, hReads⟩ := h
  exact documented_part hJson
    ⟨law, uncounted_ofPart hLawful capabilities, hReads.of_agree rfl fun _ _ => id⟩

/-- A composite of members that have documents has documents. -/
theorem documented_composite {name : String} {members : List (String × Codec)}
    (hNodup : (members.map Prod.fst).Nodup) (h : ∀ m ∈ members, m.2.part.Documented)
    (hJson : ∀ m ∈ members, m.2.capabilities.json = true) :
    (composite name true members).part.Documented := by
  have hStill : members.all (·.2.capabilities.json) = true := List.all_eq_true.2 hJson
  have hNames : (memberParts members).map Prod.fst = members.map Prod.fst := by
    rw [memberParts, List.map_map]
    rfl
  refine documented_part rfl ((keyed_composite name true members).documented ?_ ?_ ?_)
  · funext json
    show (if members.all (·.2.capabilities.json) then _ else _) = _
    rw [if_pos hStill]
    rfl
  · intro m hm
    obtain ⟨c, hc, rfl⟩ := List.mem_map.1 hm
    exact h c hc
  · rw [hNames]
    exact hNodup

end Codec

/-! ## The built-in types -/

namespace Leaf

/-- The built-in types that have documents read them. -/
theorem reads {leaf : Leaf} (h : leaf.supportsJson = true) : leaf.codec.part.Reads leaf.law := by
  cases leaf with
  | field =>
      refine ⟨fun json => ⟨_, rfl⟩, fun {v} hv => ?_⟩
      obtain ⟨json, hJson⟩ := hv
      obtain ⟨x, -, rfl⟩ := Option.map_eq_some_iff.1 (Except.ok.inj hJson)
      exact ⟨.element x, rfl, [x], rfl, .cons rfl .nil⟩
  | boolean =>
      refine ⟨fun json => ⟨_, rfl⟩, fun {v} hv => ?_⟩
      obtain ⟨json, hJson⟩ := hv
      obtain ⟨b, -, rfl⟩ := Option.map_eq_some_iff.1 (Except.ok.inj hJson)
      exact ⟨.truth b, rfl, [Element.ofBool b], rfl, .cons (by cases b <;> rfl) .nil⟩
  | uint32 =>
      refine ⟨fun json => ⟨_, rfl⟩, fun {v} hv => ?_⟩
      obtain ⟨json, hJson⟩ := hv
      obtain ⟨x, hx, rfl⟩ := Option.map_eq_some_iff.1 (Except.ok.inj hJson)
      have hFits : x.fits 32 = true := (Option.filter_eq_some_iff.1 hx).2
      exact ⟨.element x, rfl, [x], rfl, .cons hFits .nil⟩
  | opaqueHost => cases h

theorem documented {leaf : Leaf} (h : leaf.supportsJson = true) : leaf.codec.part.Documented :=
  ⟨leaf.law, leaf.lawful, reads h⟩

end Leaf

end TypedCircuit
