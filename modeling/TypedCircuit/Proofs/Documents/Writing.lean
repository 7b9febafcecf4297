import TypedCircuit.Equality
import TypedCircuit.Proofs.Codec.Counts
import TypedCircuit.Proofs.Documents.Readable
import TypedCircuit.Proofs.Hash.Collisions
import TypedCircuit.Proofs.Literals

/-!
# Values that are written as documents

A part that has documents writes every value whose elements are known and are as the rules of
the part say. What it wrote is read again, as the value that comes back from the constants of the
elements. Writing and reading go through the value and the document in their own ways, and the
value comes back on a third one, so all three are followed together: an `Exchange` is a value
with the document it is written as and the value this is read as.

## Main results

* `Part.writesAs_sequence`, `Part.readsAs_sequence`, `Part.Keyed.writesAs`, `Part.Keyed.readsAs` —
  what larger parts write and read, by what the parts inside them do.
* `Part.writes_sequence`, `Part.Keyed.writes` — larger parts write values if the parts inside do.
* `Descriptor.Readable.decode_encode` — reading undoes writing, up to constants.
-/

namespace TypedCircuit

/-- A value, the document it is written as and the value this is read as. -/
structure Exchange where
  value : Value
  document : Json
  back : Value

namespace Part

/-- A part writes a value as a document. -/
def WritesAs (p : Part) (e : Exchange) : Prop := p.encode e.value = .ok e.document

/-- A part reads a document as a value. -/
def ReadsAs (p : Part) (e : Exchange) : Prop := p.decode e.document = .ok (some e.back)

variable {p : Part} {law : Law} {parts : List Part} {laws : List Law} {es : List Exchange}

/-! ## One part after the other -/

theorem encodeAll_eq (h : List.Forall₂ WritesAs parts es) :
    encodeAll parts (es.map Exchange.value) = .ok (es.map Exchange.document) := by
  refine mapM_eq_ok.2 ?_
  rw [List.forall₂_map_right_iff]
  induction h with
  | nil => exact .nil
  | cons hHead _ ih => exact .cons hHead ih

theorem decodeAll_eq (h : List.Forall₂ ReadsAs parts es) :
    decodeAll parts (es.map Exchange.document) = .ok (some (es.map Exchange.back)) := by
  refine mapM_eq_some.2 ?_
  rw [List.forall₂_map_right_iff]
  induction h with
  | nil => exact .nil
  | cons hHead _ ih => exact .cons hHead ih

/-! ## Sequences -/

theorem writesAs_sequence (h : List.Forall₂ WritesAs parts es) (typeName : String)
    (back : Value) :
    (sequence typeName parts).WritesAs
      ⟨.array (es.map Exchange.value), .array (es.map Exchange.document), back⟩ := by
  have hItems : expectItems typeName parts.length (.array (es.map Exchange.value)) =
      .ok (es.map Exchange.value) :=
    expectItems_eq_ok.2 ⟨rfl, (List.length_map _).trans h.length_eq.symm⟩
  exact bind_eq_ok.2 ⟨_, hItems, bind_eq_ok.2 ⟨_, encodeAll_eq h, rfl⟩⟩

theorem readsAs_sequence (h : List.Forall₂ ReadsAs parts es) (typeName : String)
    (value : Value) :
    (sequence typeName parts).ReadsAs
      ⟨value, .array (es.map Exchange.document), .array (es.map Exchange.back)⟩ := by
  show (if (es.map Exchange.document).length = parts.length then
    (decodeAll parts (es.map Exchange.document)).map fun items? => items?.map Value.array
    else .ok none) = _
  rw [if_pos ((List.length_map _).trans h.length_eq.symm), decodeAll_eq h]
  rfl

/-! ## Members -/

/-- Members that are found are written under their names. -/
theorem encodeMembers_eq {members : List (String × Part)} {lookup : Lookup}
    (hFinds : Finds lookup (members.map Prod.fst) (es.map Exchange.value))
    (h : List.Forall₂ WritesAs (members.map Prod.snd) es) :
    encodeMembers lookup members =
      .ok (.ofMembers ((members.map Prod.fst).zip (es.map Exchange.document))) := by
  refine bind_eq_ok.2 ⟨_, mapM_eq_ok.2 ?_, rfl⟩
  rw [List.forall₂_map_left_iff] at h
  induction h with
  | nil => exact .nil
  | cons hHead _ ih =>
      cases hFinds with
      | cons hFound hRest =>
          refine .cons (bind_eq_ok.2 ⟨_, hFound, ?_⟩) (ih hRest)
          exact bind_eq_ok.2 ⟨_, hHead, rfl⟩

/-- Members that are read under their names are found again, because their names are distinct. -/
theorem decodeMembers_eq {members : List (String × Part)}
    (hNodup : (members.map Prod.fst).Nodup)
    (h : List.Forall₂ ReadsAs (members.map Prod.snd) es) :
    decodeMembers members
        (Entries.ofList ((members.map Prod.fst).zip (es.map Exchange.document))) =
      .ok (some (Entries.ofList ((members.map Prod.fst).zip (es.map Exchange.back)))) := by
  have hLength : (members.map Prod.fst).length = (es.map Exchange.document).length := by
    rw [List.length_map, List.length_map, ← h.length_eq, List.length_map]
  have hFinds : List.Forall₂ (fun key json => Entries.find? (Entries.ofList
      ((members.map Prod.fst).zip (es.map Exchange.document))) key = some json)
      (members.map Prod.fst) (es.map Exchange.document) := by
    refine (Entries.find?_zip hNodup hLength).imp fun key json hFind => ?_
    rwa [Entries.find?_ofList]
    rwa [Entries.names_zip hLength]
  refine bind_eq_some.2 ⟨_, mapM_eq_some.2 ?_, rfl⟩
  generalize Entries.ofList ((members.map Prod.fst).zip (es.map Exchange.document)) = document
    at hFinds
  rw [List.forall₂_map_left_iff] at h
  clear hNodup hLength
  induction h with
  | nil => exact .nil
  | cons hHead _ ih =>
      cases hFinds with
      | cons hFound hRest =>
          refine .cons (bind_eq_some.2 ⟨_, congrArg Except.ok hFound, ?_⟩) (ih hRest)
          exact bind_eq_some.2 ⟨_, hHead, rfl⟩

section Keyed

variable {members : List (String × Part)} {tag? : Option String} {lookup : Value → Lookup}

theorem Keyed.writesAs {v : Value} (hEncode : p.encode v = encodeMembers (lookup v) members)
    (h : List.Forall₂ WritesAs (members.map Prod.snd) es)
    (hFinds : Finds (lookup v) (members.map Prod.fst) (es.map Exchange.value)) (back : Value) :
    p.WritesAs
      ⟨v, .ofMembers ((members.map Prod.fst).zip (es.map Exchange.document)), back⟩ :=
  hEncode.trans (encodeMembers_eq hFinds h)

theorem Keyed.readsAs (hDecode : p.decode = decodeRecord tag? members)
    (hNodup : (members.map Prod.fst).Nodup)
    (h : List.Forall₂ ReadsAs (members.map Prod.snd) es) (value : Value) :
    p.ReadsAs
      ⟨value, .ofMembers ((members.map Prod.fst).zip (es.map Exchange.document)),
        .record tag? (Entries.ofList ((members.map Prod.fst).zip (es.map Exchange.back)))⟩ := by
  show p.decode _ = _
  rw [hDecode]
  show (decodeMembers members _).map _ = _
  rw [decodeMembers_eq hNodup h]
  rfl

end Keyed

/-! ## Parts that write values -/

/-- A part writes the values whose elements are known and are as its rules say. It reads what it
wrote as the value that comes back from the constants of the elements. -/
structure Writes (p : Part) (law : Law) : Prop where
  exchange {v : Value} {fields : List Signal} {xs : List Element} :
    p.flatten v = .ok fields → List.Forall₂ (fun s x => s.known? = some x) fields xs →
      RulesHold law.rules xs → ∃ e : Exchange, e.value = v ∧ p.WritesAs e ∧ p.ReadsAs e ∧
        p.rebuild (xs.map .constant) (p.auxiliary v) = .ok e.back

/-- A part that does what a part does that writes values writes them too. -/
theorem Writes.of_agree {q : Part} (h : p.Writes law) (hLaw : p.Lawful law)
    (hFlatten : ∀ v fields, q.flatten v = .ok fields → p.flatten v = .ok fields)
    (hEncode : q.encode = p.encode) (hDecode : q.decode = p.decode)
    (hAuxiliary : q.auxiliary = p.auxiliary)
    (hRebuild : ∀ fields aux, fields.length = law.width.fields → aux.length = law.width.aux →
      q.rebuild fields aux = p.rebuild fields aux) : q.Writes law := by
  refine ⟨fun {v fields xs} hFlat hKnown hHolds => ?_⟩
  have hOld := hFlatten v fields hFlat
  obtain ⟨e, hValue, hWritten, hRead, hBack⟩ := h.exchange hOld hKnown hHolds
  refine ⟨e, hValue, ?_, ?_, ?_⟩
  · exact (congrFun hEncode _).trans hWritten
  · exact (congrFun hDecode _).trans hRead
  · rw [hAuxiliary, hRebuild _ _ ?_ (hLaw.aux_length hOld), hBack]
    rw [List.length_map, ← hKnown.length_eq, hLaw.fields_length hOld]

/-- Items that are written by their parts one by one are written all, read again, and come back
from the constants of all their elements. -/
theorem writes_items (hLaws : List.Forall₂ Part.Lawful parts laws)
    (h : List.Forall₂ (fun (p : Part) law => p.Writes law) parts laws) {items : List Value}
    (hItems : items.length = parts.length) {fields : List Signal} {xs : List Element}
    (hFlat : flattenAll parts items = .ok fields)
    (hKnown : List.Forall₂ (fun s x => s.known? = some x) fields xs)
    (hHolds : RulesHold (laws.flatMap Law.rules) xs) :
    ∃ es : List Exchange, es.map Exchange.value = items ∧ List.Forall₂ WritesAs parts es ∧
      List.Forall₂ ReadsAs parts es ∧
        rebuildAll parts (shares (laws.map Law.width) (xs.map .constant)
          (auxiliaryAll parts items)) = .ok (es.map Exchange.back) := by
  induction hLaws generalizing items fields xs with
  | nil =>
      obtain rfl := List.length_eq_zero_iff.1 hItems
      exact ⟨[], rfl, .nil, .nil, rfl⟩
  | @cons p law parts laws hLaw _ ih =>
      cases h with
      | cons hHead hRest =>
          cases items with
          | nil => cases hItems
          | cons v items =>
              obtain ⟨front, rest, hFront, hOthers, rfl⟩ := flattenAll_cons.1 hFlat
              -- The elements of the first item are as many as its rules.
              have hLength : front.length = law.width.fields := hLaw.fields_length hFront
              have hRules : law.rules.length = law.width.fields := hLaw.rules_length
              have hKnownFront := List.forall₂_take law.width.fields hKnown
              have hKnownRest := List.forall₂_drop law.width.fields hKnown
              have hHoldsFront := List.forall₂_take law.width.fields hHolds
              have hHoldsRest := List.forall₂_drop law.width.fields hHolds
              rw [List.take_left' hLength] at hKnownFront
              rw [List.drop_left' hLength] at hKnownRest
              rw [List.flatMap_cons, List.take_left' hRules] at hHoldsFront
              rw [List.flatMap_cons, List.drop_left' hRules] at hHoldsRest
              obtain ⟨e, rfl, hWritten, hRead, hBack⟩ :=
                hHead.exchange hFront hKnownFront hHoldsFront
              obtain ⟨es, rfl, hAllWritten, hAllRead, hAllBack⟩ :=
                ih hRest (Nat.succ.inj hItems) hOthers hKnownRest hHoldsRest
              refine ⟨e :: es, rfl, .cons hWritten hAllWritten, .cons hRead hAllRead, ?_⟩
              have hConstants : xs.map Signal.constant =
                  (xs.take law.width.fields).map .constant ++
                    (xs.drop law.width.fields).map .constant := by
                rw [← List.map_append, List.take_append_drop]
              rw [List.map_cons, auxiliaryAll_cons, hConstants, shares_append ?_
                (hLaw.aux_length hFront)]
              · exact rebuildAll_cons_ok hBack hAllBack
              · rw [List.length_map, ← hKnownFront.length_eq, hLength]

/-- A sequence of parts that write values writes arrays. -/
theorem writes_sequence (hLaws : List.Forall₂ Part.Lawful parts laws)
    (h : List.Forall₂ (fun (p : Part) law => p.Writes law) parts laws) (typeName : String) :
    (sequence typeName parts).Writes (.sequence laws) := by
  refine ⟨fun {v fields xs} hFlat hKnown hHolds => ?_⟩
  obtain ⟨items, hItems, hAll⟩ := bind_eq_ok.1 hFlat
  obtain ⟨rfl, hLength⟩ := expectItems_eq_ok.1 hItems
  obtain ⟨es, rfl, hWritten, hRead, hBack⟩ := writes_items hLaws h hLength hAll hKnown hHolds
  refine ⟨⟨_, _, _⟩, rfl, writesAs_sequence hWritten typeName _,
    readsAs_sequence hRead typeName _, ?_⟩
  show (widths parts >>= fun ws => rebuildAll parts (shares ws (xs.map .constant)
    (auxiliaryAll parts (es.map Exchange.value))) >>= fun items => pure (Value.array items)) = _
  rw [widths_eq hLaws]
  show (rebuildAll parts _ >>= fun items => pure (Value.array items)) = _
  rw [hBack]
  rfl

/-- Copies of a part that writes values write arrays. -/
theorem writes_replicated (hLaw : p.Lawful law) (h : p.Writes law) (typeName : String)
    (count : Nat) :
    (replicated typeName p count).Writes (.sequence (List.replicate count law)) := by
  have hLaws : List.Forall₂ Part.Lawful (List.replicate count p) (List.replicate count law) :=
    forall₂_replicate hLaw count
  have hAll : List.Forall₂ (fun (p : Part) law => p.Writes law) (List.replicate count p)
      (List.replicate count law) :=
    forall₂_replicate h count
  refine ⟨fun {v fields xs} hFlat hKnown hHolds => ?_⟩
  rw [replicated_flatten] at hFlat
  obtain ⟨e, rfl, hWritten, hRead, hBack⟩ :=
    (writes_sequence hLaws hAll typeName).exchange hFlat hKnown hHolds
  obtain ⟨items, hItems, -⟩ := bind_eq_ok.1 hFlat
  obtain ⟨hArray, hCount⟩ := expectItems_eq_ok.1 hItems
  rw [List.length_replicate] at hCount
  refine ⟨e, rfl, ?_, ?_, ?_⟩
  · exact (replicated_encode p typeName count e.value).trans hWritten
  · exact (congrFun (replicated_decode p typeName count) e.document).trans hRead
  · rw [hArray] at hBack ⊢
    rw [← hBack]
    rw [replicated_rebuild_eq]
    show (p.width () >>= fun w => rebuildAll (List.replicate count p)
        (shares (List.replicate count w) (xs.map .constant) (items.flatMap p.auxiliary)) >>=
          fun items => pure (Value.array items)) =
      (widths (List.replicate count p) >>= fun ws => rebuildAll (List.replicate count p)
        (shares ws (xs.map .constant) (auxiliaryAll (List.replicate count p) items)) >>=
          fun items => pure (Value.array items))
    rw [widths_eq hLaws, hLaw.width_eq, List.map_replicate, ← hCount, auxiliaryAll_replicate]
    rfl

/-- A keyed structure of parts that write values writes records. -/
theorem Keyed.writes {members : List (String × Part)} {tag? : Option String}
    {lookup : Value → Lookup} (hp : p.Keyed members tag? lookup)
    (hEncode : ∀ {v items}, Finds (lookup v) (members.map Prod.fst) items →
      p.encode v = encodeMembers (lookup v) members)
    (hDecode : p.decode = decodeRecord tag? members)
    (hLaws : List.Forall₂ Part.Lawful (members.map Prod.snd) laws)
    (h : List.Forall₂ (fun (p : Part) law => p.Writes law) (members.map Prod.snd) laws)
    (hNodup : (members.map Prod.fst).Nodup) :
    p.Writes (.keyed tag? lookup (members.map Prod.fst) laws) := by
  refine ⟨fun {v fields xs} hFlat hKnown hHolds => ?_⟩
  rw [hp.flatten_eq] at hFlat
  obtain ⟨items, hFinds, hAll⟩ := flattenMembers_eq_ok.1 hFlat
  have hItems : items.length = (members.map Prod.snd).length := by
    rw [hFinds.length_eq, List.length_map, List.length_map]
  obtain ⟨es, rfl, hWritten, hRead, hBack⟩ := writes_items hLaws h hItems hAll hKnown hHolds
  refine ⟨⟨_, _, _⟩, rfl, Keyed.writesAs (hEncode hFinds) hWritten hFinds _,
    Keyed.readsAs hDecode hNodup hRead _, ?_⟩
  have hWidths : memberWidths members = .ok (laws.map Law.width) := by
    rw [memberWidths_eq, widths_eq hLaws]
  obtain ⟨hFields, hAux⟩ := length_of_flattenAll hLaws hItems hAll
  have hConstants : (xs.map Signal.constant).length = (Width.sum (laws.map Law.width)).fields := by
    rw [List.length_map, ← hKnown.length_eq, hFields]
  rw [(hp.visit hFinds).1, hp.rebuild_eq hWidths hConstants hAux, rebuildMembers_eq hWidths,
    hBack]
  rfl

/-! ## Parts that write and read values -/

/-- A part is lawful, and writes and reads documents by its law. -/
def Exchanges (p : Part) : Prop := ∃ law, p.Lawful law ∧ p.Writes law

theorem exists_exchanging_laws (h : ∀ p ∈ parts, p.Exchanges) :
    ∃ laws, List.Forall₂ Part.Lawful parts laws ∧
      List.Forall₂ (fun (p : Part) law => p.Writes law) parts laws := by
  obtain ⟨laws, hLaws⟩ := exists_forall₂ h
  exact ⟨laws, hLaws.imp fun _ _ hp => hp.1, hLaws.imp fun _ _ hp => hp.2⟩

theorem exchanges_sequence (h : ∀ p ∈ parts, p.Exchanges) (typeName : String) :
    (sequence typeName parts).Exchanges := by
  obtain ⟨laws, hLaws, hWrites⟩ := exists_exchanging_laws h
  exact ⟨_, lawful_sequence hLaws typeName, writes_sequence hLaws hWrites typeName⟩

theorem Exchanges.replicated (h : p.Exchanges) (typeName : String) (count : Nat) :
    (replicated typeName p count).Exchanges := by
  obtain ⟨law, hLaw, hWrites⟩ := h
  exact ⟨_, lawful_replicated hLaw typeName count, writes_replicated hLaw hWrites typeName count⟩

theorem Keyed.exchanges {members : List (String × Part)} {tag? : Option String}
    {lookup : Value → Lookup} (hp : p.Keyed members tag? lookup)
    (hEncode : ∀ {v items}, Finds (lookup v) (members.map Prod.fst) items →
      p.encode v = encodeMembers (lookup v) members)
    (hDecode : p.decode = decodeRecord tag? members) (h : ∀ m ∈ members, m.2.Exchanges)
    (hNodup : (members.map Prod.fst).Nodup) : p.Exchanges := by
  have hParts : ∀ q ∈ members.map Prod.snd, q.Exchanges := by
    intro q hq
    obtain ⟨m, hm, rfl⟩ := List.mem_map.1 hq
    exact h m hm
  obtain ⟨laws, hLaws, hWrites⟩ := exists_exchanging_laws hParts
  exact ⟨_, hp.lawful hLaws hNodup, hp.writes hEncode hDecode hLaws hWrites hNodup⟩

/-- A constant is written as it is. -/
theorem exchanges_constant (typeName : String) (json : Json) :
    (constant typeName json).Exchanges := by
  obtain ⟨width, rules, hLaw⟩ :=
    lawfulFor_constant (r := .empty) (d := .structural (.constant json)) rfl typeName
  refine ⟨_, hLaw, ⟨fun {v fields xs} hFlat _ _ => ?_⟩⟩
  obtain ⟨_, hFound, -⟩ := map_eq_ok.1 hFlat
  refine ⟨⟨v, json, .primitive json⟩, rfl, ?_, ?_, rfl⟩
  · exact map_eq_ok.2 ⟨(), hFound, rfl⟩
  · exact congrArg Except.ok (if_pos (beq_self_eq_true json))

/-- A part writes what it wrote under another width that is right. -/
theorem Exchanges.withWidth {width : Width} (h : p.Exchanges) (hWidth : p.width () = .ok width) :
    Exchanges { p with width := fun _ => .ok width } := by
  obtain ⟨law, hLaw, hWrites⟩ := h
  refine ⟨law, hLaw.of_agree hWidth.symm (fun _ _ => Iff.rfl) (fun _ _ _ => ⟨rfl, rfl⟩)
    fun _ _ _ _ => rfl, hWrites.of_agree hLaw (fun _ _ => id) rfl rfl rfl fun _ _ _ _ => rfl⟩

end Part

/-! ## Codecs that have documents -/

namespace Codec

variable {c : Codec} {law : Part.Law}

theorem toJson_eq (h : c.capabilities.json = true) : c.toJson = c.encode := by
  funext v
  unfold toJson
  rw [if_pos h]

theorem exchanges_part (hJson : c.capabilities.json = true) (h : c.uncounted.Exchanges) :
    c.part.Exchanges := by
  obtain ⟨law, hLaw, hWrites⟩ := h
  refine ⟨law, lawful_part hLaw, hWrites.of_agree hLaw (fun v fields => (toFields_eq_ok hLaw).1)
    (toJson_eq hJson) (fromJson_eq hJson) rfl fun fields aux _ hAux => ?_⟩
  exact ofFieldsWithAux_eq hLaw.width_eq hAux

theorem exchanges_ofPart {p : Part} (h : p.Exchanges) {capabilities : Capabilities}
    (hJson : capabilities.json = true) : (ofPart p capabilities).part.Exchanges := by
  obtain ⟨law, hLaw, hWrites⟩ := h
  refine exchanges_part hJson ⟨law, uncounted_ofPart hLaw capabilities,
    hWrites.of_agree hLaw (fun _ _ => id) rfl rfl rfl fun fields aux hFields hAux => ?_⟩
  show rebuildExactly p fields aux = p.rebuild fields aux
  unfold rebuildExactly
  rw [hLaw.width_eq]
  show (if fields.length ≠ law.width.fields then _ else
    if aux.length ≠ law.width.aux then _ else _) = _
  rw [if_neg (not_not_intro hFields), if_neg (not_not_intro hAux)]

/-- A composite of members that write and read documents writes and reads them. -/
theorem exchanges_composite {name : String} {members : List (String × Codec)}
    (hNodup : (members.map Prod.fst).Nodup) (h : ∀ m ∈ members, m.2.part.Exchanges)
    (hJson : ∀ m ∈ members, m.2.capabilities.json = true) :
    (composite name true members).part.Exchanges := by
  have hStill : members.all (·.2.capabilities.json) = true := List.all_eq_true.2 hJson
  have hNames : (memberParts members).map Prod.fst = members.map Prod.fst := by
    rw [memberParts, List.map_map]
    rfl
  refine exchanges_part rfl ((keyed_composite name true members).exchanges ?_ ?_ ?_ ?_)
  · intro v items hFinds
    show (if members.all (·.2.capabilities.json) then _ else _) = _
    rw [if_pos hStill]
    exact onMembers_eq hFinds fun hNone => by rw [hNone]; rfl
  · funext json
    show (if members.all (·.2.capabilities.json) then _ else _) = _
    rw [if_pos hStill]
    rfl
  · intro m hm
    obtain ⟨c, hc, rfl⟩ := List.mem_map.1 hm
    exact h c hc
  · rw [hNames]
    exact hNodup

end Codec

/-! ## The built-in types -/

namespace Codec

variable {s : Signal} {x : Element}

theorem decimalJson_eq (h : s.known? = some x) : decimalJson s = .ok (.string x.text) := by
  unfold decimalJson
  rw [Signal.value_eq_ok.2 h]
  rfl

theorem decimal?_text (x : Element) : decimal? (.string x.text) = some x := by
  show (Element.parse x.text).toOption = _
  rw [Element.parse_text]
  rfl

end Codec

/-- A bit of which the element is zero or one is the truth value of the element. -/
theorem Bit.value_eq {b : Bit} {x : Element} (hKnown : b.signal.known? = some x)
    (h : x.isBoolean = true) : ∃ truth, b.value = .ok truth ∧ Element.ofBool truth = x := by
  unfold Bit.value
  rw [Signal.value_eq_ok.2 hKnown]
  rcases Bool.or_eq_true_iff.1 h with hZero | hOne
  · rw [eq_of_beq hZero]
    exact ⟨false, rfl, rfl⟩
  · rw [eq_of_beq hOne]
    exact ⟨true, rfl, rfl⟩

namespace Leaf

/-- The built-in types that have documents write the elements that their rules allow. -/
theorem writes {leaf : Leaf} (h : leaf.supportsJson = true) :
    leaf.codec.part.Writes leaf.law := by
  refine ⟨fun {v fields xs} hFlat hKnown hHolds => ?_⟩
  cases flattens_of_eq_ok (Codec.flatten_of_toFields hFlat) with
  | field s =>
      obtain ⟨x, _, hx, hNil, rfl⟩ := List.forall₂_cons_left_iff.1 hKnown
      cases hNil
      refine ⟨⟨.signal s, .string x.text, .ofElement x⟩, rfl, ?_, ?_, rfl⟩
      · exact Codec.decimalJson_eq hx
      · exact congrArg (fun x? => Except.ok (x?.map Value.ofElement)) (Codec.decimal?_text x)
  | boolean b =>
      obtain ⟨x, _, hx, hNil, rfl⟩ := List.forall₂_cons_left_iff.1 hKnown
      cases hNil
      obtain ⟨hHolds, -⟩ := List.forall₂_cons.1 hHolds
      obtain ⟨truth, hTruth, rfl⟩ := Bit.value_eq hx hHolds
      refine ⟨⟨.bit b, .bool truth, .ofBool truth⟩, rfl, ?_, rfl, rfl⟩
      show (b.value >>= fun truth => pure (Json.bool truth)) = _
      rw [hTruth]
      rfl
  | uint32 s =>
      obtain ⟨x, _, hx, hNil, rfl⟩ := List.forall₂_cons_left_iff.1 hKnown
      cases hNil
      obtain ⟨hHolds, -⟩ := List.forall₂_cons.1 hHolds
      refine ⟨⟨.signal s, .string x.text, .ofElement x⟩, rfl, ?_, ?_, rfl⟩
      · exact Codec.decimalJson_eq hx
      · show Except.ok (((Codec.decimal? (.string x.text)).filter (·.fits 32)).map
          Value.ofElement) = _
        have hFits : x.fits 32 = true := hHolds
        rw [Codec.decimal?_text, Option.filter_some, if_pos hFits]
        rfl
  | opaqueHost hHost => cases h

theorem exchanges {leaf : Leaf} (h : leaf.supportsJson = true) : leaf.codec.part.Exchanges :=
  ⟨leaf.law, leaf.lawful, writes h⟩

end Leaf

/-! ## Readable types -/

mutual

/-- The codec of a readable type is lawful, and writes and reads documents. -/
theorem Descriptor.Readable.exchanges {r : Registry} {d : Descriptor} :
    d.Readable r → (r.codec d).part.Exchanges
  | .leaf h => Leaf.exchanges h
  | .array hElement length =>
      Codec.exchanges_ofPart (hElement.exchanges.replicated _ length) hElement.codec_json
  | .tuple hElements => by
      have hJson := (Descriptor.Readable.tuple hElements).codec_json
      rw [Registry.codec, Descriptor.codec_tuple] at hJson ⊢
      refine Codec.exchanges_ofPart (Part.exchanges_sequence (fun p hp => ?_) _) hJson
      rw [List.map_map] at hp
      obtain ⟨d, hd, rfl⟩ := List.mem_map.1 hp
      exact (hElements d hd).exchanges
  | .structural hRoot => Codec.exchanges_ofPart hRoot.exchanges hRoot.supportsJson
  | .composite hNodup hMembers => by
      have hGrounded := Registry.Grounded.of_members fun m hm =>
        (hMembers m hm).regular.grounded
      rw [Registry.codec_composite hGrounded]
      refine Codec.exchanges_composite ?_ (fun m hm => ?_) fun m hm => ?_
      · rw [List.map_map]
        exact hNodup
      · obtain ⟨member, hMember, rfl⟩ := List.mem_map.1 hm
        exact (hMembers member hMember).exchanges
      · obtain ⟨member, hMember, rfl⟩ := List.mem_map.1 hm
        exact (hMembers member hMember).codec_json
  | .unregistered name => @Codec.exchanges_composite name [] List.nodup_nil nofun nofun

/-- The part of a readable shape is lawful, and writes and reads documents. -/
theorem Shape.Readable.exchanges {r : Registry} {s : Shape} :
    s.Readable r → (s.part r.names).Exchanges
  | .leaf hType hWidth =>
      hType.exchanges.withWidth ((Registry.codec_part_width _).trans hWidth)
  | .array hItems => by
      rw [Shape.part_array]
      refine Part.exchanges_sequence (fun p hp => ?_) _
      obtain ⟨s, hs, rfl⟩ := List.mem_map.1 hp
      exact (hItems s hs).exchanges
  | .object hNodup hMembers => by
      rw [Shape.part_object]
      refine (Part.keyed_object _ _).exchanges (fun _ => rfl) rfl (fun m hm => ?_) ?_
      · obtain ⟨member, hMember, rfl⟩ := List.mem_map.1 hm
        exact (hMembers member hMember).exchanges
      · rw [List.map_map]
        exact hNodup
  | .constant json => Part.exchanges_constant _ json

end

/-- Rules that were asserted of known elements hold of them. -/
theorem rulesHold_of_assertRules {rules : List Rule} {fields : List Signal} {xs : List Element}
    (hLength : rules.length = fields.length)
    (hKnown : List.Forall₂ (fun s x => s.known? = some x) fields xs) {runs after : List Run}
    (h : assertRules rules fields runs = (.ok (), after)) : RulesHold rules xs := by
  have hPasses : List.Forall₂ Rule.Passes rules fields := by
    by_contra hNot
    obtain ⟨e, after', hFails⟩ := assertRules_fails hLength hNot runs
    cases hFails.symm.trans h
  clear h hLength
  induction hPasses generalizing xs with
  | nil => cases hKnown; exact .nil
  | cons hHead _ ih =>
      cases hKnown with
      | cons hFirst hRest => exact .cons ((Rule.passes_iff hFirst).1 hHead) (ih hRest)

/--
A value of a readable type that flattens to known elements and passes the check of the type is
written as a document, and the document is read as the value of the constants of the elements.
-/
theorem Descriptor.Readable.decode_encode {r : Registry} {d : Descriptor} (h : d.Readable r)
    {v : Value} {fields : List Signal} {xs : List Element}
    (hFlat : (r.codec d).toFields v = .ok fields)
    (hValues : (fields.mapM fun s : Signal => s.value) = .ok xs) {runs after : List Run}
    (hCheck : (r.codec d).check v runs = (.ok (), after)) :
    ∃ json w, (r.codec d).toJson v = .ok json ∧ (r.codec d).toConstant v = .ok w ∧
      (r.codec d).fromJson json = .ok (some w) := by
  obtain ⟨law, hLaw, hWrites⟩ := h.exchanges
  have hKnown := values_eq_ok.1 hValues
  have hAsserted : assertRules law.rules fields runs = (.ok (), after) :=
    (congrFun (hLaw.check_eq hFlat) runs).symm.trans hCheck
  have hHolds := rulesHold_of_assertRules
    (hLaw.rules_length.trans (hLaw.fields_length hFlat).symm) hKnown hAsserted
  obtain ⟨e, rfl, hWritten, hRead, hBack⟩ := hWrites.exchange hFlat hKnown hHolds
  refine ⟨e.document, e.back, hWritten, ?_, hRead⟩
  have hConstants : fields.mapM Signal.toConstant = .ok (xs.map .constant) := by
    refine mapM_eq_ok.2 (List.forall₂_map_right_iff.2 (hKnown.imp fun s x hx => ?_))
    exact map_eq_ok.2 ⟨x, Signal.value_eq_ok.2 hx, rfl⟩
  exact bind_eq_ok.2 ⟨_, hFlat, bind_eq_ok.2 ⟨_, hConstants, hBack⟩⟩

/-! ## Parcels -/

/-- A registry with parcels, which are insured or not and have a number. -/
private def parcels : Registry :=
  ⟨[("Parcel", [("insured", .boolean), ("number", .field)])]⟩

/-- A kind that is fixed, the weights of two items and a parcel. -/
private def shipment : Descriptor :=
  .tuple [.structural (.object [("kind", .constant (.string "air")),
    ("weight", .array [.leaf .uint32 ⟨1, 0⟩, .leaf .uint32 ⟨1, 0⟩])]), .composite "Parcel" true]

/-- A shipment of which one weight and the insurance are variables. -/
private def express : Value :=
  .array [.record none [("kind", .primitive (.string "air")),
      ("weight", .array [.signal (.variable ⟨0, some 12⟩), .ofElement 30])],
    .record (some "Parcel") [("insured", .bit ⟨.variable ⟨1, some 1⟩⟩), ("number", .ofElement 5)]]

private theorem shipment_readable : shipment.Readable parcels := by
  refine .tuple fun d hd => ?_
  rcases hd with _ | ⟨_, _ | ⟨_, hd⟩⟩
  · refine .structural (.object (by decide) fun m hm => ?_)
    rcases hm with _ | ⟨_, _ | ⟨_, hm⟩⟩
    · exact .constant _
    · refine .array fun s hs => ?_
      rcases hs with _ | ⟨_, _ | ⟨_, hs⟩⟩
      · exact .leaf (.leaf rfl) rfl
      · exact .leaf (.leaf rfl) rfl
      · cases hs
    · cases hm
  · refine .composite (by decide) fun m hm => ?_
    rcases hm with _ | ⟨_, _ | ⟨_, hm⟩⟩
    · exact .leaf rfl
    · exact .leaf rfl
    · cases hm
  · cases hd

/-- A shipment with variables is written and read again as the one of their values. -/
theorem decode_encode_express :
    ∃ json w, (parcels.codec shipment).toJson express = .ok json ∧
      (parcels.codec shipment).toConstant express = .ok w ∧
      (parcels.codec shipment).fromJson json = .ok (some w) := by
  have hFlat : (parcels.codec shipment).toFields express =
      .ok [.variable ⟨0, some 12⟩, .constant 30, .variable ⟨1, some 1⟩, .constant 5] := rfl
  have hValues : (([.variable ⟨0, some 12⟩, .constant 30, .variable ⟨1, some 1⟩, .constant 5] :
      List Signal).mapM fun s : Signal => s.value) = .ok [12, 30, 1, 5] := rfl
  have hCheck : (parcels.codec shipment).check express [] = (.ok (), []) := rfl
  exact shipment_readable.decode_encode hFlat hValues hCheck

end TypedCircuit
