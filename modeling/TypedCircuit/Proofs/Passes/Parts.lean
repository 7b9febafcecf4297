import TypedCircuit.Proofs.Codec.Members
import TypedCircuit.Proofs.Passes.Wiring

/-!
# Parts in two passes

A part is *uniform* if it does the same to alike values: they flatten to alike signals, carry
alike auxiliary entries, come back alike, record the same gates when they are checked, and have
alike hash inputs. In addition, what flattens carries nothing but host data beside its elements,
which is why a pass that has none of it may go on with nulls; and a check leaves the pass in its
mode.

The form of a value decides what a part does to it, never the value of a signal. So everything
built from uniform parts by visiting them in order is uniform.

## Main results

* `Part.uniform_sequence`, `Part.uniform_replicated`, `Part.uniform_object`,
  `Part.uniform_constant` — positions of uniform parts.
* `Codec.uniform_part`, `Codec.uniform_ofPart` — counting keeps parts uniform.
-/

namespace TypedCircuit

open Value (MembersAlike)

theorem valuesAlike_getD {α β : Type} {R : α → β → Prop} {a? : Option α} {b? : Option β}
    (h : Option.Rel R a? b?) {f : α → List Value} {g : β → List Value}
    (hNext : ∀ a b, R a b → ValuesAlike (f a) (g b)) :
    ValuesAlike ((a?.map f).getD []) ((b?.map g).getD []) := by
  cases h with
  | none => exact .nil
  | some hab => exact hNext _ _ hab

/-- A part does the same to alike values. -/
structure Part.Uniform (p : Part) : Prop where
  flatten {v w : Value} (h : v.Alike w) : ResultsAgree SignalsAlike (p.flatten v) (p.flatten w)
  auxiliary {v w : Value} (h : v.Alike w) : ValuesAlike (p.auxiliary v) (p.auxiliary w)
  hostData {v : Value} {fields : List Signal} (h : p.flatten v = .ok fields) :
    ∀ a ∈ p.auxiliary v, a.HostData
  rebuild {fields fields' : List Signal} {aux aux' : List Value}
    (hFields : SignalsAlike fields fields') (hAux : ValuesAlike aux aux') :
    ResultsAgree Value.Alike (p.rebuild fields aux) (p.rebuild fields' aux')
  check {v w : Value} (h : v.Alike w) : Agree RunsAlike Unrelated (p.check v) (p.check w)
  keepsMode (v : Value) : KeepsMode (p.check v)
  input {v w : Value} (h : v.Alike w) : ResultsAgree HashInput.Alike (p.input v) (p.input w)

/-! ## Hash inputs and shares -/

theorem HashInput.Alike.empty : HashInput.empty.Alike .empty := ⟨.nil, .nil⟩

theorem HashInput.Alike.ofFields {fields fields' : List Signal} (h : SignalsAlike fields fields') :
    (HashInput.ofFields fields).Alike (.ofFields fields') := ⟨h, .nil⟩

theorem HashInput.Alike.ofPacked {s t : Signal} (h : s.Alike t) (bits : Nat) :
    (HashInput.ofPacked s bits).Alike (.ofPacked t bits) := ⟨.nil, .cons ⟨h, rfl⟩ .nil⟩

theorem HashInput.Alike.concat {inputs inputs' : List HashInput}
    (h : List.Forall₂ HashInput.Alike inputs inputs') :
    (HashInput.concat inputs).Alike (HashInput.concat inputs') :=
  ⟨List.rel_flatMap h fun _ _ hInput => hInput.fields,
    List.rel_flatMap h fun _ _ hInput => hInput.packed⟩

/-- Two shares of alike signals and alike auxiliary entries. -/
def SharesAlike (share share' : List Signal × List Value) : Prop :=
  SignalsAlike share.1 share'.1 ∧ ValuesAlike share.2 share'.2

theorem shares_alike (widths : List Width) {fields fields' : List Signal} {aux aux' : List Value}
    (hFields : SignalsAlike fields fields') (hAux : ValuesAlike aux aux') :
    List.Forall₂ SharesAlike (shares widths fields aux) (shares widths fields' aux') := by
  induction widths generalizing fields fields' aux aux' with
  | nil => exact .nil
  | cons w widths ih =>
      rw [shares_cons, shares_cons]
      exact .cons ⟨List.forall₂_take _ hFields, List.forall₂_take _ hAux⟩
        (ih (List.forall₂_drop _ hFields) (List.forall₂_drop _ hAux))

namespace Part

/-! ## Items -/

section

variable {parts : List Part} {items items' : List Value}

theorem flattenAll_agree (h : ∀ p ∈ parts, p.Uniform) (hItems : ValuesAlike items items') :
    ResultsAgree SignalsAlike (flattenAll parts items) (flattenAll parts items') := by
  refine ResultsAgree.bind (ResultsAgree.mapM (forall₂_zip_zip (forall₂_self h) hItems) ?_)
    fun _ _ hChunks => .ok (List.rel_flatten hChunks)
  rintro ⟨p, v⟩ ⟨_, w⟩ ⟨⟨rfl, hp⟩, hAlike⟩
  exact hp.flatten hAlike

theorem auxiliaryAll_alike (h : ∀ p ∈ parts, p.Uniform) (hItems : ValuesAlike items items') :
    ValuesAlike (auxiliaryAll parts items) (auxiliaryAll parts items') := by
  refine List.rel_flatMap (forall₂_zip_zip (forall₂_self h) hItems) ?_
  rintro ⟨p, v⟩ ⟨_, w⟩ ⟨⟨rfl, hp⟩, hAlike⟩
  exact hp.auxiliary hAlike

theorem hostData_auxiliaryAll (h : ∀ p ∈ parts, p.Uniform) {fields : List Signal}
    (hFlat : flattenAll parts items = .ok fields) :
    ∀ a ∈ auxiliaryAll parts items, a.HostData := by
  obtain ⟨chunks, hChunks, -⟩ := bind_eq_ok.1 hFlat
  intro a ha
  obtain ⟨⟨p, v⟩, hMem, ha⟩ := List.mem_flatMap.1 ha
  obtain ⟨chunk, hChunk⟩ := exists_of_mapM_ok hChunks hMem
  exact (h p (List.of_mem_zip hMem).1).hostData hChunk a ha

theorem rebuildAll_agree (h : ∀ p ∈ parts, p.Uniform)
    {shares shares' : List (List Signal × List Value)}
    (hShares : List.Forall₂ SharesAlike shares shares') :
    ResultsAgree ValuesAlike (rebuildAll parts shares) (rebuildAll parts shares') := by
  refine ResultsAgree.mapM (forall₂_zip_zip (forall₂_self h) hShares) ?_
  rintro ⟨p, share⟩ ⟨_, share'⟩ ⟨⟨rfl, hp⟩, hShare⟩
  exact hp.rebuild hShare.1 hShare.2

theorem checkAll_agree (h : ∀ p ∈ parts, p.Uniform) (hItems : ValuesAlike items items') :
    Agree RunsAlike Unrelated (checkAll parts items) (checkAll parts items') := by
  refine Agree.forM (forall₂_zip_zip (forall₂_self h) hItems) ?_
  rintro ⟨p, v⟩ ⟨_, w⟩ ⟨⟨rfl, hp⟩, hAlike⟩
  exact hp.check hAlike

theorem checkAll_keepsMode (h : ∀ p ∈ parts, p.Uniform) (items : List Value) :
    KeepsMode (checkAll parts items) :=
  KeepsMode.forM fun _ hMem => (h _ (List.of_mem_zip hMem).1).keepsMode _

theorem inputAll_agree (h : ∀ p ∈ parts, p.Uniform) (hItems : ValuesAlike items items') :
    ResultsAgree HashInput.Alike (inputAll parts items) (inputAll parts items') := by
  refine ResultsAgree.bind (ResultsAgree.mapM (forall₂_zip_zip (forall₂_self h) hItems) ?_)
    fun _ _ hInputs => .ok (HashInput.Alike.concat hInputs)
  rintro ⟨p, v⟩ ⟨_, w⟩ ⟨⟨rfl, hp⟩, hAlike⟩
  exact hp.input hAlike

theorem expectItems_agree (typeName : String) (count : Nat) {v w : Value} (h : v.Alike w) :
    ResultsAgree ValuesAlike (expectItems typeName count v) (expectItems typeName count w) := by
  have hItems := h.items?
  unfold expectItems
  cases hv : v.items? with
  | none => exact .error_left
  | some items =>
      cases hw : w.items? with
      | none => exact .error_right
      | some items' =>
          rw [hv, hw] at hItems
          cases hItems with
          | some hItems =>
              show ResultsAgree _ (if items.length = count then _ else _)
                (if items'.length = count then _ else _)
              rw [hItems.length_eq]
              split
              · exact .ok hItems
              · exact .error_left

/-- A position that lists uniform parts is uniform. -/
theorem uniform_sequence (typeName : String) (h : ∀ p ∈ parts, p.Uniform) :
    (sequence typeName parts).Uniform where
  flatten hAlike := (expectItems_agree _ _ hAlike).bind fun _ _ hItems => flattenAll_agree h hItems
  auxiliary hAlike := valuesAlike_getD hAlike.items? fun _ _ => auxiliaryAll_alike h
  hostData hFlat := by
    obtain ⟨items, hItems, hAll⟩ := bind_eq_ok.1 hFlat
    obtain ⟨rfl, -⟩ := expectItems_eq_ok.1 hItems
    exact hostData_auxiliaryAll h hAll
  rebuild hFields hAux := by
    refine (ResultsAgree.refl _).bind ?_
    rintro widths _ rfl
    exact (rebuildAll_agree h (shares_alike widths hFields hAux)).bind fun _ _ hItems =>
      .ok (.of_items hItems)
  check hAlike := (Agree.lift (expectItems_agree _ _ hAlike)).bind fun _ _ hItems =>
    checkAll_agree h hItems
  keepsMode _ := (KeepsMode.lift _).bind fun _ => checkAll_keepsMode h _
  input hAlike := (expectItems_agree _ _ hAlike).bind fun _ _ hItems => inputAll_agree h hItems

/-- A position that holds items of one uniform part is uniform. -/
theorem uniform_replicated (typeName : String) {p : Part} (h : p.Uniform) (count : Nat) :
    (replicated typeName p count).Uniform := by
  have hCopies : ∀ q ∈ List.replicate count p, q.Uniform := fun q hq =>
    List.eq_of_mem_replicate hq ▸ h
  have hSequence := uniform_sequence typeName hCopies
  refine ⟨fun {v w} hAlike => ?_, fun hAlike => ?_, fun {v fields} hFlat => ?_,
    fun {fields fields' aux aux'} hFields hAux => ?_, fun {v w} hAlike => ?_, fun v => ?_,
    fun {v w} hAlike => ?_⟩
  · rw [replicated_flatten, replicated_flatten]
    exact hSequence.flatten hAlike
  · exact valuesAlike_getD hAlike.items? fun _ _ hItems =>
      List.rel_flatMap hItems fun _ _ hItem => h.auxiliary hItem
  · obtain ⟨items, hItems, -⟩ := bind_eq_ok.1 hFlat
    obtain ⟨rfl, rfl⟩ := expectItems_eq_ok.1 hItems
    rw [replicated_flatten] at hFlat
    show ∀ a ∈ items.flatMap p.auxiliary, a.HostData
    rw [← auxiliaryAll_replicate]
    exact hSequence.hostData hFlat
  · rw [replicated_rebuild_eq, replicated_rebuild_eq]
    refine (ResultsAgree.refl _).bind ?_
    rintro width _ rfl
    exact (rebuildAll_agree hCopies (shares_alike _ hFields hAux)).bind fun _ _ hItems =>
      .ok (.of_items hItems)
  · rw [replicated_check, replicated_check]
    exact hSequence.check hAlike
  · rw [replicated_check]
    exact hSequence.keepsMode v
  · rw [replicated_input, replicated_input]
    exact hSequence.input hAlike

end

/-! ## Members -/

section

variable {members : List (String × Part)} {lookup lookup' : Lookup}
  {record record' : Entries Value}

/-- Two look-ups find alike members. -/
def LookupsAgree (lookup lookup' : Lookup) : Prop :=
  ∀ name, ResultsAgree Value.Alike (lookup name) (lookup' name)

theorem flattenMembers_agree (h : ∀ m ∈ members, m.2.Uniform)
    (hLookup : LookupsAgree lookup lookup') :
    ResultsAgree SignalsAlike (flattenMembers lookup members)
      (flattenMembers lookup' members) := by
  refine ResultsAgree.bind (ResultsAgree.mapM (forall₂_self h) ?_) fun _ _ hChunks =>
    .ok (List.rel_flatten hChunks)
  rintro m _ ⟨rfl, hm⟩
  exact (hLookup m.1).bind fun _ _ hAlike => hm.flatten hAlike

theorem auxiliaryMembers_alike (h : ∀ m ∈ members, m.2.Uniform)
    (hRecord : MembersAlike record record') :
    ValuesAlike (auxiliaryMembers members record) (auxiliaryMembers members record') := by
  refine List.rel_flatMap (forall₂_self h) ?_
  rintro m _ ⟨rfl, hm⟩
  exact valuesAlike_getD (hRecord.find? m.1) fun _ _ hAlike => hm.auxiliary hAlike

/-- Members that flatten carry host data, if what is looked up is what a record has. -/
theorem hostData_auxiliaryMembers (h : ∀ m ∈ members, m.2.Uniform)
    (hLookup : ∀ name v, lookup name = .ok v → record.find? name = some v)
    {fields : List Signal} (hFlat : flattenMembers lookup members = .ok fields) :
    ∀ a ∈ auxiliaryMembers members record, a.HostData := by
  obtain ⟨chunks, hChunks, -⟩ := bind_eq_ok.1 hFlat
  intro a ha
  obtain ⟨⟨name, p⟩, hMem, ha⟩ := List.mem_flatMap.1 ha
  obtain ⟨chunk, hChunk⟩ := exists_of_mapM_ok hChunks hMem
  obtain ⟨v, hFound, hChunk⟩ := bind_eq_ok.1 hChunk
  simp only [hLookup _ _ hFound] at ha
  exact (h _ hMem).hostData hChunk a ha

theorem rebuildMembers_agree (h : ∀ m ∈ members, m.2.Uniform) {fields fields' : List Signal}
    {aux aux' : List Value} (hFields : SignalsAlike fields fields')
    (hAux : ValuesAlike aux aux') :
    ResultsAgree MembersAlike (rebuildMembers members fields aux)
      (rebuildMembers members fields' aux') := by
  refine (ResultsAgree.refl _).bind ?_
  rintro widths _ rfl
  refine ResultsAgree.bind (R := MembersAlike) ?_ fun _ _ hMembers => .ok hMembers.ofList
  refine fun out out' hOut hOut' => Value.membersAlike_iff.2 ?_
  refine ResultsAgree.mapM (forall₂_zip_zip (forall₂_self h) (shares_alike widths hFields hAux)) ?_
    out out' hOut hOut'
  rintro ⟨m, share⟩ ⟨_, share'⟩ ⟨⟨rfl, hm⟩, hShare⟩
  exact (hm.rebuild hShare.1 hShare.2).bind fun _ _ hAlike => .ok ⟨rfl, hAlike⟩

theorem checkMembers_agree (h : ∀ m ∈ members, m.2.Uniform)
    (hLookup : LookupsAgree lookup lookup') :
    Agree RunsAlike Unrelated (checkMembers lookup members) (checkMembers lookup' members) := by
  refine Agree.forM (forall₂_self h) ?_
  rintro m _ ⟨rfl, hm⟩
  exact (Agree.lift (hLookup m.1)).bind fun _ _ hAlike => hm.check hAlike

theorem checkMembers_keepsMode (h : ∀ m ∈ members, m.2.Uniform) (lookup : Lookup) :
    KeepsMode (checkMembers lookup members) :=
  KeepsMode.forM fun m hm => (KeepsMode.lift (lookup m.1)).bind fun _ => (h m hm).keepsMode _

theorem inputMembers_agree (h : ∀ m ∈ members, m.2.Uniform)
    (hLookup : LookupsAgree lookup lookup') :
    ResultsAgree HashInput.Alike (inputMembers lookup members)
      (inputMembers lookup' members) := by
  refine ResultsAgree.bind (ResultsAgree.mapM (forall₂_self h) ?_) fun _ _ hInputs =>
    .ok (HashInput.Alike.concat hInputs)
  rintro m _ ⟨rfl, hm⟩
  exact (hLookup m.1).bind fun _ _ hAlike => hm.input hAlike

theorem lookupKey_agree (typeName : String) {v w : Value} (h : v.Alike w) :
    LookupsAgree (lookupKey typeName v) (lookupKey typeName w) := by
  intro name item item' hItem hItem'
  obtain ⟨tag?, record, rfl, hFind⟩ := lookupKey_eq_ok.1 hItem
  obtain ⟨tag?', record', rfl, hFind'⟩ := lookupKey_eq_ok.1 hItem'
  have hRecord := h.record?
  cases hRecord with
  | some hRecord =>
      have hFound := hRecord.2.find? name
      rw [hFind, hFind'] at hFound
      cases hFound with
      | some hAlike => exact hAlike

/-- An object of uniform parts is uniform. -/
theorem uniform_object (typeName : String) (h : ∀ m ∈ members, m.2.Uniform) :
    (object typeName members).Uniform where
  flatten hAlike := flattenMembers_agree h (lookupKey_agree typeName hAlike)
  auxiliary hAlike := valuesAlike_getD hAlike.record? fun _ _ hRecord =>
    auxiliaryMembers_alike h hRecord.2
  hostData {v fields} hFlat := by
    cases v with
    | record tag? record =>
        refine hostData_auxiliaryMembers h (fun name item hItem => ?_) hFlat
        obtain ⟨_, _, hRecord, hFind⟩ := lookupKey_eq_ok.1 hItem
        cases hRecord
        exact hFind
    | signal | bit | array | primitive | opaqueValue => exact nofun
  rebuild hFields hAux := (rebuildMembers_agree h hFields hAux).map fun _ _ hMembers =>
    .record none hMembers
  check hAlike := checkMembers_agree h (lookupKey_agree typeName hAlike)
  keepsMode _ := checkMembers_keepsMode h _
  input hAlike := inputMembers_agree h (lookupKey_agree typeName hAlike)

/-- A fixed primitive is uniform. -/
theorem uniform_constant (typeName : String) (json : Json) :
    (constant typeName json).Uniform where
  flatten _ := ResultsAgree.map (R := Unrelated) (fun _ _ _ _ => trivial) fun _ _ _ => .nil
  auxiliary _ := .nil
  hostData _ := nofun
  rebuild _ _ := .ok (.primitive json)
  check _ := Agree.lift fun _ _ _ _ => trivial
  keepsMode _ := .lift _
  input _ := ResultsAgree.map (R := Unrelated) (fun _ _ _ _ => trivial) fun _ _ _ =>
    HashInput.Alike.empty

end

end Part

end TypedCircuit
