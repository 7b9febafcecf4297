import TypedCircuit.Proofs.Assigned.Elements
import TypedCircuit.Proofs.Codec.Counts

/-!
# Comparing assigned values

Two values are compared part by part, and the comparison stops at the first difference. It can
fail: a signal may have no value, and a bit may have one that is neither zero nor one. Where
neither happens, it comes to an answer, and for two values that a type has rebuilt the answer is
whether they were rebuilt from the same elements and the same host data.

Records are compared name by name. Two records of one type have the same names, so neither the
order of the members nor the number of them tells records apart.

## Main results

* `Value.sameItems_decides`, `Value.sameMembers_decides` — when sequences and records are the same.
* `Descriptor.Regular.compares` — comparing what a regular type has rebuilt.
-/

namespace TypedCircuit

/-! ## Answers -/

/-- A computation comes to the answer whether something holds. -/
def Decides (x : Except Error Bool) (P : Prop) : Prop := ∃ b, x = .ok b ∧ (b = true ↔ P)

theorem Decides.congr {x : Except Error Bool} {P Q : Prop} (h : Decides x P) (hIff : P ↔ Q) :
    Decides x Q := by
  obtain ⟨b, hx, hb⟩ := h
  exact ⟨b, hx, hb.trans hIff⟩

theorem Decides.ok_true_iff {x : Except Error Bool} {P : Prop} (h : Decides x P) :
    x = .ok true ↔ P := by
  obtain ⟨b, rfl, hb⟩ := h
  rw [← hb]
  exact ⟨Except.ok.inj, congrArg Except.ok⟩

theorem Decides.eq_decide {x : Except Error Bool} {P : Prop} [Decidable P] (h : Decides x P) :
    x = .ok (decide P) := by
  obtain ⟨b, rfl, hb⟩ := h
  rw [Bool.eq_iff_iff.2 (hb.trans decide_eq_true_iff.symm)]

namespace Value

/-! ## The bits of a value -/

mutual

/-- The bits in a value. -/
def bits : Value → List Bit
  | .bit b => [b]
  | .array items => bitsOfItems items
  | .record _ members => bitsOfMembers members
  | .signal _ | .primitive _ | .opaqueValue _ => []

/-- The bits in items. -/
def bitsOfItems : List Value → List Bit
  | [] => []
  | v :: rest => v.bits ++ bitsOfItems rest

/-- The bits in members. -/
def bitsOfMembers : List (String × Value) → List Bit
  | [] => []
  | (_, v) :: rest => v.bits ++ bitsOfMembers rest

end

/-- Every bit in a value has a value that is zero or one. -/
def Truthful (v : Value) : Prop := ∀ b ∈ v.bits, ∃ t, b.value = .ok t

theorem Truthful.item {items : List Value} (h : (Value.array items).Truthful) {v : Value}
    (hv : v ∈ items) : v.Truthful := by
  suffices hBits : ∀ b ∈ v.bits, b ∈ bitsOfItems items from fun b hb => h b (hBits b hb)
  clear h
  induction items with
  | nil => cases hv
  | cons first rest ih =>
      intro b hb
      rw [bitsOfItems]
      rcases List.mem_cons.1 hv with rfl | hRest
      · exact List.mem_append_left _ hb
      · exact List.mem_append_right _ (ih hRest b hb)

theorem Truthful.member {tag? : Option String} {members : Entries Value}
    (h : (Value.record tag? members).Truthful) {name : String} {v : Value}
    (hv : (name, v) ∈ members) : v.Truthful := by
  suffices hBits : ∀ b ∈ v.bits, b ∈ bitsOfMembers members from fun b hb => h b (hBits b hb)
  clear h
  induction members with
  | nil => cases hv
  | cons first rest ih =>
      intro b hb
      rw [bitsOfMembers]
      rcases List.mem_cons.1 hv with rfl | hRest
      · exact List.mem_append_left _ hb
      · exact List.mem_append_right _ (ih hRest b hb)

/-! ## Parts of values -/

/-- Two values are found to be the same. -/
abbrev Same (v w : Value) : Prop := v.sameValue w = .ok true

/-- Whether two values are the same is found out. -/
abbrev Comparable (v w : Value) : Prop := ∃ b, v.sameValue w = .ok b

theorem sameItems_decides {items others : List Value}
    (h : List.Forall₂ Comparable items others) :
    Decides (sameItems items others) (List.Forall₂ Same items others) := by
  induction h with
  | nil => exact ⟨true, rfl, iff_of_true rfl .nil⟩
  | @cons v w items others hHead _ ih =>
      obtain ⟨b, hb⟩ := hHead
      rw [sameItems, hb, List.forall₂_cons, Same, hb]
      cases b with
      | false => exact ⟨false, rfl, iff_of_false Bool.false_ne_true fun h => nomatch h.1⟩
      | true => exact ih.congr (and_iff_right rfl).symm

theorem sameMembers_decides {members : List (String × Value)} {others : Entries Value}
    (h : ∀ m ∈ members, ∀ w, others.find? m.1 = some w → m.2.Comparable w) :
    Decides (sameMembers members others)
      (∀ m ∈ members, ∃ w, others.find? m.1 = some w ∧ m.2.Same w) := by
  induction members with
  | nil => exact ⟨true, rfl, iff_of_true rfl nofun⟩
  | cons m members ih =>
      obtain ⟨name, v⟩ := m
      obtain ⟨hHead, hRest⟩ := List.forall_mem_cons.1 h
      simp only [List.forall_mem_cons]
      rw [sameMembers]
      cases hFind : others.find? name with
      | none => exact ⟨false, rfl, iff_of_false Bool.false_ne_true fun ⟨⟨_, hw, _⟩, _⟩ => nomatch hw⟩
      | some w =>
          obtain ⟨b, hb⟩ := hHead w hFind
          have hSame : (∃ w', some w = some w' ∧ v.Same w') ↔ b = true := by
            constructor
            · rintro ⟨w', hw', hSame⟩
              cases hw'
              exact Except.ok.inj (hb.symm.trans hSame)
            · rintro rfl
              exact ⟨w, rfl, hb⟩
          dsimp only
          rw [hb, hSame]
          cases b with
          | false => exact ⟨false, rfl, iff_of_false Bool.false_ne_true fun h => nomatch h.1⟩
          | true => exact (ih hRest).congr (and_iff_right rfl).symm

theorem sameValue_array {items others : List Value} (h : List.Forall₂ Comparable items others) :
    Decides ((Value.array items).sameValue (.array others)) (List.Forall₂ Same items others) := by
  rw [sameValue, if_neg (not_not.2 h.length_eq)]
  exact sameItems_decides h

end Value

/-! ## Rebuilt records -/

namespace Entries

variable {α : Type}

theorem find?_ofList_zip {keys : List String} {values : List α} (hNodup : keys.Nodup)
    (hLength : keys.length = values.length) :
    List.Forall₂ (fun key a => find? (ofList (keys.zip values)) key = some a) keys values := by
  refine (find?_zip hNodup hLength).imp fun key a hFind => ?_
  rwa [find?_ofList]
  rwa [names_zip hLength]

/-- What holds of items under the same names holds of what the names find. -/
theorem finds_of_forall₂ {P : α → α → Prop} {keys : List String} {items values : List α}
    {others : Entries α}
    (hOthers : List.Forall₂ (fun key b => others.find? key = some b) keys values)
    (h : List.Forall₂ P items values) :
    ∀ m ∈ keys.zip items, ∃ b, others.find? m.1 = some b ∧ P m.2 b := by
  induction hOthers generalizing items with
  | nil => exact List.forall_mem_nil _
  | cons hFind _ ih =>
      cases h with
      | cons hHead hRest => exact List.forall_mem_cons.2 ⟨⟨_, hFind, hHead⟩, ih hRest⟩

theorem forall₂_of_finds {P : α → α → Prop} {keys : List String} {items values : List α}
    {entries others : Entries α}
    (hFinds : List.Forall₂ (fun key a => entries.find? key = some a) keys items)
    (hOthers : List.Forall₂ (fun key b => others.find? key = some b) keys values)
    (h : ∀ m ∈ entries, ∃ b, others.find? m.1 = some b ∧ P m.2 b) :
    List.Forall₂ P items values := by
  induction hFinds generalizing values with
  | nil => cases hOthers; exact .nil
  | cons hFind _ ih =>
      cases hOthers with
      | cons hOther hRest =>
          obtain ⟨b, hb, hHead⟩ := h _ (mem_of_find? hFind)
          cases hOther.symm.trans hb
          exact .cons hHead (ih hRest)

end Entries

namespace Value

variable {keys : List String} {items others : List Value}

/-- Records of items under the same names are the same if the items are. -/
theorem sameValue_record (hNodup : keys.Nodup) (hItems : keys.length = items.length)
    (h : List.Forall₂ Comparable items others) (tag? : Option String) :
    Decides ((Value.record tag? (Entries.ofList (keys.zip items))).sameValue
        (.record tag? (Entries.ofList (keys.zip others))))
      (List.Forall₂ Same items others) := by
  have hOthers : keys.length = others.length := hItems.trans h.length_eq
  have hFinds := Entries.find?_ofList_zip hNodup hItems
  have hFinds' := Entries.find?_ofList_zip hNodup hOthers
  have hNames {values : List Value} (hLength : keys.length = values.length) :
      (Entries.ofList (keys.zip values)).length = keys.length := by
    have hDistinct : (Entries.names (keys.zip values)).Nodup := by
      rwa [Entries.names_zip hLength]
    have hPerm := Entries.names_ofList_perm hDistinct
    rw [Entries.names_zip hLength] at hPerm
    exact (List.length_map _).symm.trans hPerm.length_eq
  have hLengths : (Entries.ofList (keys.zip items)).length =
      (Entries.ofList (keys.zip others)).length := (hNames hItems).trans (hNames hOthers).symm
  rw [sameValue, if_neg (by simp [hLengths])]
  refine (sameMembers_decides fun m hm => ?_).congr ⟨Entries.forall₂_of_finds hFinds hFinds', ?_⟩
  · intro w hw
    obtain ⟨w', hw', hComparable⟩ := Entries.finds_of_forall₂ hFinds' h m (Entries.mem_ofList hm)
    cases hw.symm.trans hw'
    exact hComparable
  · exact fun hSame m hm => Entries.finds_of_forall₂ hFinds' hSame m (Entries.mem_ofList hm)

end Value

/-! ## Rebuilt values -/

namespace Part

/-- Elements with values and host data, of the numbers of a width. -/
structure Assigned (width : Width) (fields : List Signal) (aux : List Value)
    (xs : List Element) : Prop where
  fields_length : fields.length = width.fields
  aux_length : aux.length = width.aux
  hostData : ∀ a ∈ aux, a.HostData
  values : List.Forall₂ (fun s x => s.known? = some x) fields xs

/-- Comparing two values that a part has rebuilt tells whether they were rebuilt from the same. -/
structure Compares (p : Part) (width : Width) : Prop where
  width_eq : p.width () = .ok width
  decides {fields fields' : List Signal} {aux aux' : List Value} {xs ys : List Element}
    (h : Assigned width fields aux xs) (h' : Assigned width fields' aux' ys) {v w : Value}
    (hv : p.rebuild fields aux = .ok v) (hw : p.rebuild fields' aux' = .ok w)
    (hTruthful : v.Truthful) (hTruthful' : w.Truthful) :
    Decides (v.sameValue w) (xs = ys ∧ aux = aux')

variable {p : Part} {width rest : Width} {fields : List Signal} {aux : List Value}
  {xs : List Element}

/-- The first share and what is left behind it. -/
theorem Assigned.split (h : Assigned (width + rest) fields aux xs) :
    Assigned width (fields.take width.fields) (aux.take width.aux) (xs.take width.fields) ∧
      Assigned rest (fields.drop width.fields) (aux.drop width.aux) (xs.drop width.fields) := by
  have hFields : fields.length = width.fields + rest.fields := h.fields_length
  have hAux : aux.length = width.aux + rest.aux := h.aux_length
  constructor
  · refine ⟨?_, ?_, fun a ha => h.hostData a (List.mem_of_mem_take ha),
      List.forall₂_take _ h.values⟩
    · rw [List.length_take]; omega
    · rw [List.length_take]; omega
  · refine ⟨?_, ?_, fun a ha => h.hostData a (List.mem_of_mem_drop ha),
      List.forall₂_drop _ h.values⟩
    · rw [List.length_drop]; omega
    · rw [List.length_drop]; omega

/-- A part without a share has nothing to compare. -/
theorem Assigned.eq_nil (h : Assigned Width.zero fields aux xs) : xs = [] ∧ aux = [] := by
  refine ⟨List.eq_nil_of_length_eq_zero ?_, List.eq_nil_of_length_eq_zero h.aux_length⟩
  exact h.values.length_eq.symm.trans h.fields_length

theorem Assigned.eq_singleton (h : Assigned ⟨1, 0⟩ fields aux xs) :
    ∃ s x, fields = [s] ∧ aux = [] ∧ xs = [x] ∧ s.known? = some x := by
  obtain ⟨s, rfl⟩ := List.length_eq_one_iff.1 h.fields_length
  obtain ⟨x, rfl⟩ := List.length_eq_one_iff.1 (h.values.length_eq.symm.trans h.fields_length)
  exact ⟨s, x, rfl, List.eq_nil_of_length_eq_zero h.aux_length, rfl,
    (List.forall₂_cons.1 h.values).1⟩

theorem eq_iff_take_drop {α : Type} (count : Nat) (xs ys : List α) :
    xs = ys ↔ xs.take count = ys.take count ∧ xs.drop count = ys.drop count := by
  constructor
  · rintro rfl
    exact ⟨rfl, rfl⟩
  · rintro ⟨hTake, hDrop⟩
    rw [← List.take_append_drop count xs, hTake, hDrop, List.take_append_drop]

/-- Items that were rebuilt share by share are the same if all shares are. -/
theorem rebuildAll_compares {parts : List Part} {ws : List Width}
    (h : List.Forall₂ Part.Compares parts ws) {fields fields' : List Signal}
    {aux aux' : List Value} {xs ys : List Element} (hx : Assigned (Width.sum ws) fields aux xs)
    (hy : Assigned (Width.sum ws) fields' aux' ys) {items others : List Value}
    (hItems : rebuildAll parts (shares ws fields aux) = .ok items)
    (hOthers : rebuildAll parts (shares ws fields' aux') = .ok others)
    (hTruthful : ∀ v ∈ items, v.Truthful) (hTruthful' : ∀ v ∈ others, v.Truthful) :
    List.Forall₂ Value.Comparable items others ∧
      (List.Forall₂ Value.Same items others ↔ xs = ys ∧ aux = aux') := by
  induction h generalizing fields fields' aux aux' xs ys items others with
  | nil =>
      cases hItems
      cases hOthers
      obtain ⟨rfl, rfl⟩ := hx.eq_nil
      obtain ⟨rfl, rfl⟩ := hy.eq_nil
      exact ⟨.nil, iff_of_true .nil ⟨rfl, rfl⟩⟩
  | @cons p w parts ws hHead _ ih =>
      rw [shares_cons, rebuildAll_cons] at hItems hOthers
      obtain ⟨v, hv, hItems⟩ := bind_eq_ok.1 hItems
      obtain ⟨items, hRest, hItems⟩ := bind_eq_ok.1 hItems
      obtain ⟨v', hv', hOthers⟩ := bind_eq_ok.1 hOthers
      obtain ⟨others, hRest', hOthers⟩ := bind_eq_ok.1 hOthers
      cases hItems
      cases hOthers
      rw [Width.sum_cons] at hx hy
      obtain ⟨hFirst, hLast⟩ := hx.split
      obtain ⟨hFirst', hLast'⟩ := hy.split
      obtain ⟨hTrue, hTrueRest⟩ := List.forall_mem_cons.1 hTruthful
      obtain ⟨hTrue', hTrueRest'⟩ := List.forall_mem_cons.1 hTruthful'
      have hDecides := hHead.decides hFirst hFirst' hv hv' hTrue hTrue'
      obtain ⟨hComparable, hSame⟩ := ih hLast hLast' hRest hRest' hTrueRest hTrueRest'
      obtain ⟨b, hb, -⟩ := id hDecides
      refine ⟨.cons ⟨b, hb⟩ hComparable, ?_⟩
      rw [List.forall₂_cons, hSame, Value.Same, hDecides.ok_true_iff,
        eq_iff_take_drop w.fields xs ys, eq_iff_take_drop w.aux aux aux']
      exact and_and_and_comm

/-- A part that rebuilds what a comparing part rebuilds compares. -/
theorem Compares.of_agree {q : Part} (h : p.Compares width) (hWidth : q.width () = p.width ())
    (hRebuild : ∀ fields aux, fields.length = width.fields → aux.length = width.aux →
      q.rebuild fields aux = p.rebuild fields aux) : q.Compares width where
  width_eq := hWidth.trans h.width_eq
  decides {fields fields' aux aux' xs ys} hx hy {v w} hv hw := by
    rw [hRebuild _ _ hx.fields_length hx.aux_length] at hv
    rw [hRebuild _ _ hy.fields_length hy.aux_length] at hw
    exact h.decides hx hy hv hw

/-! ## Sequences and keyed structures -/

variable {parts : List Part} {ws : List Width}

theorem widths_eq_of_compares (h : List.Forall₂ Part.Compares parts ws) :
    widths parts = .ok ws := by
  rw [widths, mapM_eq_ok]
  exact h.imp fun p w hp => hp.width_eq

/-- A part that rebuilds arrays, item by item, compares. -/
theorem compares_of_items {q : Part} (h : List.Forall₂ Part.Compares parts ws)
    (hWidth : q.width () = .ok (Width.sum ws))
    (hRebuild : ∀ fields aux, q.rebuild fields aux =
      (rebuildAll parts (shares ws fields aux)).map .array) : q.Compares (Width.sum ws) where
  width_eq := hWidth
  decides {fields fields' aux aux' xs ys} hx hy {v w} hv hw hTruthful hTruthful' := by
    rw [hRebuild] at hv hw
    obtain ⟨items, hItems, rfl⟩ := map_eq_ok.1 hv
    obtain ⟨others, hOthers, rfl⟩ := map_eq_ok.1 hw
    obtain ⟨hComparable, hSame⟩ := rebuildAll_compares h hx hy hItems hOthers
      (fun _ => hTruthful.item) fun _ => hTruthful'.item
    exact (Value.sameValue_array hComparable).congr hSame

theorem compares_sequence (h : List.Forall₂ Part.Compares parts ws) (typeName : String) :
    (sequence typeName parts).Compares (Width.sum ws) := by
  refine compares_of_items h ?_ fun fields aux => ?_
  · show (widths parts).map Width.sum = _
    rw [widths_eq_of_compares h]
    rfl
  · show (widths parts >>= fun ws =>
      rebuildAll parts (shares ws fields aux) >>= fun items => pure (Value.array items)) = _
    rw [widths_eq_of_compares h]
    show (rebuildAll parts (shares ws fields aux) >>= _) = _
    cases rebuildAll parts (shares ws fields aux) <;> rfl

theorem compares_replicated (h : p.Compares width) (typeName : String) (count : Nat) :
    (replicated typeName p count).Compares (Width.sum (List.replicate count width)) := by
  have hAll : List.Forall₂ Part.Compares (List.replicate count p) (List.replicate count width) :=
    forall₂_replicate h count
  refine compares_of_items hAll ?_ fun fields aux => ?_
  · show (p.width ()).map (Width.times count) = _
    rw [h.width_eq, Width.sum_replicate]
    rfl
  · rw [replicated_rebuild_eq, h.width_eq]
    show (rebuildAll _ (shares (List.replicate count width) fields aux) >>= _) = _
    cases rebuildAll (List.replicate count p) (shares (List.replicate count width) fields aux) <;>
      rfl

/-- Items that were rebuilt, one for each part. -/
theorem length_of_rebuildAll {items : List Value}
    (h : rebuildAll parts (shares ws fields aux) = .ok items) (hWidths : parts.length = ws.length) :
    items.length = parts.length := by
  rw [← (mapM_eq_ok.1 h).length_eq, List.length_zip, shares_length, hWidths, Nat.min_self]

/-- A keyed structure of comparing members with distinct names compares. -/
theorem Keyed.compares {members : List (String × Part)} {tag? : Option String}
    {lookup : Value → Lookup} (hp : p.Keyed members tag? lookup)
    (h : List.Forall₂ Part.Compares (members.map Prod.snd) ws)
    (hNodup : (members.map Prod.fst).Nodup) : p.Compares (Width.sum ws) := by
  have hWidths : memberWidths members = .ok ws := by
    rw [memberWidths_eq, widths_eq_of_compares h]
  have hOpen : ∀ {fields aux xs v}, Assigned (Width.sum ws) fields aux xs →
      p.rebuild fields aux = .ok v → ∃ items,
        rebuildAll (members.map Prod.snd) (shares ws fields aux) = .ok items ∧
        (members.map Prod.fst).length = items.length ∧
        v = .record tag? (Entries.ofList ((members.map Prod.fst).zip items)) := by
    intro fields aux xs v hx hv
    rw [hp.rebuild_eq hWidths hx.fields_length hx.aux_length, rebuildMembers_eq hWidths] at hv
    obtain ⟨_, hRecord, rfl⟩ := map_eq_ok.1 hv
    obtain ⟨items, hItems, rfl⟩ := map_eq_ok.1 hRecord
    refine ⟨items, hItems, ?_, rfl⟩
    rw [length_of_rebuildAll hItems h.length_eq, List.length_map, List.length_map]
  have hMembers : ∀ {items : List Value}, (members.map Prod.fst).length = items.length →
      (Value.record tag? (Entries.ofList ((members.map Prod.fst).zip items))).Truthful →
        ∀ v ∈ items, v.Truthful := by
    intro items hLength hTruthful v hv
    obtain ⟨i, hi, rfl⟩ := List.getElem_of_mem hv
    have hFind := (Entries.find?_ofList_zip hNodup hLength).get (hLength.symm ▸ hi) hi
    exact hTruthful.member (Entries.mem_of_find? hFind)
  refine ⟨?_, fun {fields fields' aux aux' xs ys} hx hy {v w} hv hw hTruthful hTruthful' => ?_⟩
  · rw [hp.width_eq, hWidths]
    rfl
  · obtain ⟨items, hItems, hLength, rfl⟩ := hOpen hx hv
    obtain ⟨others, hOthers, hLength', rfl⟩ := hOpen hy hw
    obtain ⟨hComparable, hSame⟩ := rebuildAll_compares h hx hy hItems hOthers
      (hMembers hLength hTruthful) (hMembers hLength' hTruthful')
    exact (Value.sameValue_record hNodup hLength hComparable tag?).congr hSame

theorem compares_constant (typeName : String) (json : Json) :
    (constant typeName json).Compares Width.zero where
  width_eq := rfl
  decides {_ _ _ _ _ _} hx hy {_ _} hv hw _ _ := by
    cases hv
    cases hw
    obtain ⟨rfl, rfl⟩ := hx.eq_nil
    obtain ⟨rfl, rfl⟩ := hy.eq_nil
    exact ⟨_, rfl, iff_of_true (beq_self_eq_true json) ⟨rfl, rfl⟩⟩

end Part

/-! ## Codecs -/

namespace Codec

variable {c : Codec} {width : Width}

/-- Counting changes nothing for what a comparing part rebuilds. -/
theorem compares_part (h : c.uncounted.Compares width) : c.part.Compares width :=
  h.of_agree rfl fun _ _ _ hAux => ofFieldsWithAux_eq h.width_eq hAux

theorem compares_ofPart {p : Part} (h : p.Compares width) (capabilities : Capabilities) :
    (ofPart p capabilities).part.Compares width :=
  compares_part (h.of_agree rfl fun _ _ hFields hAux => rebuildExactly_eq h.width_eq hFields hAux)

theorem compares_plain (h : c.part.Compares width) (typeName : String) :
    (plain typeName c).part.Compares width :=
  compares_part (h.of_agree rfl fun _ _ _ _ => rfl)

end Codec

namespace Value

/-- Comparing two signals of known values. -/
theorem sameValue_signal {s s' : Signal} {x y : Element} (hs : s.known? = some x)
    (hs' : s'.known? = some y) :
    Decides ((Value.signal s).sameValue (.signal s')) (x = y) := by
  rw [sameValue, Signal.value_eq_ok.2 hs, Signal.value_eq_ok.2 hs']
  exact ⟨_, rfl, beq_iff_eq⟩

theorem sameValue_bit (b b' : Bit) {x y : Element} (hb : b.signal.known? = some x)
    (hb' : b'.signal.known? = some y) (hTruthful : ∃ t, b.value = .ok t)
    (hTruthful' : ∃ t, b'.value = .ok t) :
    Decides ((Value.bit b).sameValue (.bit b')) (x = y) := by
  obtain ⟨t, ht⟩ := hTruthful
  obtain ⟨t', ht'⟩ := hTruthful'
  obtain rfl := Option.some.inj (hb.symm.trans (Bit.value_eq_ok.1 ht))
  obtain rfl := Option.some.inj (hb'.symm.trans (Bit.value_eq_ok.1 ht'))
  rw [sameValue, ht, ht']
  exact ⟨_, rfl, beq_iff_eq.trans Element.ofBool_inj.symm⟩

theorem sameValue_hostData {v w : Value} (hv : v.HostData) (hw : w.HostData) :
    Decides (v.sameValue w) (v = w) := by
  rcases hostData_iff.1 hv with ⟨identity, rfl⟩ | rfl
  · rcases hostData_iff.1 hw with ⟨other, rfl⟩ | rfl
    · rw [sameValue]
      refine ⟨_, rfl, beq_iff_eq.trans ⟨congrArg _, opaqueValue.inj⟩⟩
    · exact ⟨false, rfl, iff_of_false Bool.false_ne_true nofun⟩
  · rcases hostData_iff.1 hw with ⟨other, rfl⟩ | rfl
    · exact ⟨false, rfl, iff_of_false Bool.false_ne_true nofun⟩
    · exact ⟨true, rfl, iff_of_true rfl rfl⟩

end Value

theorem Decides.singleton {x : Except Error Bool} {y z : Element} (h : Decides x (y = z)) :
    Decides x ([y] = [z] ∧ ([] : List Value) = []) :=
  h.congr (by rw [List.singleton_inj, and_iff_left rfl])

/-- The built-in types compare. -/
theorem Leaf.compares (leaf : Leaf) : leaf.codec.part.Compares leaf.width := by
  refine Codec.compares_part ⟨leaf.codec_width, ?_⟩
  intro fields fields' aux aux' xs ys hx hy v w hv hw hTruthful hTruthful'
  cases leaf with
  | field | uint32 =>
      obtain ⟨s, x, rfl, rfl, rfl, hs⟩ := hx.eq_singleton
      obtain ⟨s', y, rfl, rfl, rfl, hs'⟩ := hy.eq_singleton
      cases hv
      cases hw
      exact (Value.sameValue_signal hs hs').singleton
  | boolean =>
      obtain ⟨s, x, rfl, rfl, rfl, hs⟩ := hx.eq_singleton
      obtain ⟨s', y, rfl, rfl, rfl, hs'⟩ := hy.eq_singleton
      cases hv
      cases hw
      exact (Value.sameValue_bit ⟨s⟩ ⟨s'⟩ hs hs'
        (hTruthful _ (List.mem_singleton_self _))
        (hTruthful' _ (List.mem_singleton_self _))).singleton
  | opaqueHost =>
      obtain rfl := List.eq_nil_of_length_eq_zero hx.fields_length
      obtain rfl := List.eq_nil_of_length_eq_zero hy.fields_length
      obtain ⟨a, rfl⟩ := List.length_eq_one_iff.1 hx.aux_length
      obtain ⟨a', rfl⟩ := List.length_eq_one_iff.1 hy.aux_length
      cases hx.values
      cases hy.values
      cases hv
      cases hw
      refine (Value.sameValue_hostData (hx.hostData _ (List.mem_singleton_self _))
        (hy.hostData _ (List.mem_singleton_self _))).congr ?_
      rw [List.singleton_inj, and_iff_right rfl]

/-! ## Regular types -/

namespace Part

/-- A part compares, whatever its share. -/
def IsComparing (p : Part) : Prop := ∃ width, p.Compares width

/-- Every way to assemble parts keeps them comparing. -/
theorem structural_isComparing : Structural IsComparing where
  leaf type := ⟨type.width, type.compares⟩
  part := fun ⟨width, h⟩ => ⟨width, Codec.compares_part h⟩
  ofPart := fun ⟨width, h⟩ capabilities => ⟨width, Codec.compares_ofPart h capabilities⟩
  withWidth := fun ⟨width, h⟩ hWidth => ⟨width, h.of_agree hWidth.symm fun _ _ _ _ => rfl⟩
  sequence typeName parts h := by
    obtain ⟨ws, hws⟩ := exists_forall₂ h
    exact ⟨_, compares_sequence hws typeName⟩
  replicated typeName _ := fun ⟨_, h⟩ count => ⟨_, compares_replicated h typeName count⟩
  keyed {_ members _ _} hp h hNodup := by
    have hParts : ∀ q ∈ members.map Prod.snd, q.IsComparing := by
      intro q hq
      obtain ⟨m, hm, rfl⟩ := List.mem_map.1 hq
      exact h m hm
    obtain ⟨ws, hws⟩ := exists_forall₂ hParts
    exact ⟨_, hp.compares hws hNodup⟩
  constant typeName json := ⟨_, compares_constant typeName json⟩
  plain typeName _ := fun ⟨width, h⟩ => ⟨width, Codec.compares_plain h typeName⟩

end Part

/-- Comparing two values that a regular type has rebuilt tells whether they were rebuilt from the
same elements and host data. -/
theorem Descriptor.Regular.compares {r : Registry} {d : Descriptor} (h : d.Regular r) :
    (r.codec d).part.IsComparing := Part.structural_isComparing.regular h

end TypedCircuit
