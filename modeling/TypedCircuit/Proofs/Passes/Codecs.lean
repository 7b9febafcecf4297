import TypedCircuit.Proofs.Codec.Compositional
import TypedCircuit.Proofs.Codec.Results
import TypedCircuit.Proofs.Passes.Parts

/-!
# Types in two passes

Every type is uniform, whatever is registered: also types that mention themselves, types that
lie about their counts, and shapes whose leaves keep a width their type has lost. Alike values
are equally nested and alike shares are equally long, so a codec that is built for something of
a size is built alike for both.

## Main results

* `Registry.uniform_codec` — the codec of a type is uniform.
-/

namespace TypedCircuit

open Value (MembersAlike)

namespace Codec

/-- A codec does the same to alike values, before any count is verified. -/
def Uniform (c : Codec) : Prop := c.uncounted.Uniform

/-! ## Counting -/

variable {c : Codec} {v w : Value} {fields fields' : List Signal} {aux aux' : List Value}

/-- A result that is verified to have some number of elements. -/
theorem counted_agree {width : Width} (hFields : SignalsAlike fields fields')
    (failure : Nat → Error) :
    ResultsAgree SignalsAlike
      (if fields.length = width.fields then .ok fields else .error (failure fields.length))
      (if fields'.length = width.fields then .ok fields' else .error (failure fields'.length)) := by
  rw [hFields.length_eq]
  split
  · exact .ok hFields
  · exact .error_left

theorem toFields_agree (h : c.Uniform) (hAlike : v.Alike w) :
    ResultsAgree SignalsAlike (c.toFields v) (c.toFields w) := by
  refine (h.flatten hAlike).bind fun out out' hOut => (ResultsAgree.refl _).bind ?_
  rintro width _ rfl
  exact counted_agree hOut _

theorem hostData_of_toFields (h : c.Uniform) (hFields : c.toFields v = .ok fields) :
    ∀ a ∈ c.auxiliary v, a.HostData := by
  obtain ⟨out, hFlat, -⟩ := bind_eq_ok.1 hFields
  exact h.hostData hFlat

/-- Alike shares come back alike. Nothing has to be known of how many auxiliary entries there
are if they are all host data. -/
theorem ofFieldsWithAux_agree (h : c.Uniform) (hFields : SignalsAlike fields fields')
    (hAux : aux.length = aux'.length → ValuesAlike aux aux') :
    ResultsAgree Value.Alike (c.ofFieldsWithAux fields aux) (c.ofFieldsWithAux fields' aux') := by
  intro v w hv hw
  obtain ⟨width, hWidth, hLength, hv⟩ := ofFieldsWithAux_eq_ok.1 hv
  obtain ⟨width', hWidth', hLength', hw⟩ := ofFieldsWithAux_eq_ok.1 hw
  rw [hWidth] at hWidth'
  cases hWidth'
  exact h.rebuild hFields (hAux (hLength.trans hLength'.symm)) v w hv hw

theorem toInput_agree (h : c.Uniform) (hAlike : v.Alike w) :
    ResultsAgree HashInput.Alike (c.toInput v) (c.toInput w) := by
  unfold toInput
  split
  · exact h.input hAlike
  · exact .error_left

theorem toInputOrFields_agree (h : c.Uniform) (hAlike : v.Alike w) :
    ResultsAgree HashInput.Alike (c.toInputOrFields v) (c.toInputOrFields w) := by
  unfold toInputOrFields
  split
  · exact toInput_agree h hAlike
  · exact (toFields_agree h hAlike).map fun _ _ hFields => .ofFields hFields

/-- A uniform codec is uniform at a position. -/
theorem uniform_part (h : c.Uniform) : c.part.Uniform where
  flatten := toFields_agree h
  auxiliary := h.auxiliary
  hostData := hostData_of_toFields h
  rebuild hFields hAux := ofFieldsWithAux_agree h hFields fun _ => hAux
  check := h.check
  keepsMode := h.keepsMode
  input := toInputOrFields_agree h

/-- The type that takes exactly the counts of a uniform part is uniform. -/
theorem uniform_ofPart {p : Part} (h : p.Uniform) (capabilities : Capabilities) :
    (ofPart p capabilities).Uniform where
  flatten := h.flatten
  auxiliary := h.auxiliary
  hostData := h.hostData
  rebuild hFields hAux := by
    refine (ResultsAgree.refl _).bind ?_
    rintro width _ rfl
    rw [hFields.length_eq, hAux.length_eq]
    split
    · exact .error_left
    · split
      · exact .error_left
      · exact h.rebuild hFields hAux
  check := h.check
  keepsMode := h.keepsMode
  input := h.input

/-! ## The built-in types and types of the user -/

theorem expectSignal_agree (typeName : String) (h : v.Alike w) :
    ResultsAgree Signal.Alike (expectSignal typeName v) (expectSignal typeName w) := by
  intro s t hs ht
  rw [expectSignal_eq_ok.1 hs, expectSignal_eq_ok.1 ht] at h
  cases h with
  | signal h => exact h
  | hostData hv => cases hv

theorem expectBit_agree (h : v.Alike w) : ResultsAgree Bit.Alike (expectBit v) (expectBit w) := by
  intro a b ha hb
  rw [expectBit_eq_ok.1 ha, expectBit_eq_ok.1 hb] at h
  cases h with
  | bit h => exact h
  | hostData hv => cases hv

theorem single_agree (typeName : String) (h : SignalsAlike fields fields') :
    ResultsAgree Signal.Alike (single typeName fields) (single typeName fields') := by
  cases h with
  | nil => exact .error_left
  | cons hHead hRest =>
      cases hRest with
      | nil => exact .ok hHead
      | cons => exact .error_left

theorem uniform_leaf (leaf : Leaf) : leaf.codec.Uniform := by
  cases leaf with
  | field =>
      exact {
        flatten := fun h => (expectSignal_agree _ h).map fun _ _ hs => .cons hs .nil
        auxiliary := fun _ => .nil
        hostData := fun _ => nofun
        rebuild := fun hFields _ => (single_agree _ hFields).map fun _ _ hs => .signal hs
        check := fun _ => .pure trivial
        keepsMode := fun _ => .pure _
        input := fun h => (expectSignal_agree _ h).map fun _ _ hs => .ofFields (.cons hs .nil) }
  | boolean =>
      exact {
        flatten := fun h => (expectBit_agree h).map fun _ _ hb => .cons hb .nil
        auxiliary := fun _ => .nil
        hostData := fun _ => nofun
        rebuild := fun hFields _ => (single_agree _ hFields).map fun _ _ hs => .bit hs
        check := fun h => (Agree.lift (expectBit_agree h)).bind fun _ _ hb =>
          Signal.assertBoolean_agree hb
        keepsMode := fun _ => (KeepsMode.lift _).bind fun _ => .assertKnown _ _ _ .boolean
        input := fun h => (expectBit_agree h).map fun _ _ hb => .ofPacked hb 1 }
  | uint32 =>
      exact {
        flatten := fun h => (expectSignal_agree _ h).map fun _ _ hs => .cons hs .nil
        auxiliary := fun _ => .nil
        hostData := fun _ => nofun
        rebuild := fun hFields _ => (single_agree _ hFields).map fun _ _ hs => .signal hs
        check := fun h => (Agree.lift (expectSignal_agree _ h)).bind fun _ _ hs =>
          Signal.assertRange_agree hs 32
        keepsMode := fun _ => (KeepsMode.lift _).bind fun _ => .assertKnown _ _ _ (.range · 32)
        input := fun h => (expectSignal_agree _ h).map fun _ _ hs => .ofPacked hs 32 }
  | opaqueHost =>
      exact {
        flatten := fun _ => ResultsAgree.map (R := Unrelated) (fun _ _ _ _ => trivial)
          fun _ _ _ => .nil
        auxiliary := fun h => .cons h .nil
        hostData := fun {v _} hFlat a ha => by
          obtain ⟨_, hv, -⟩ := map_eq_ok.1 hFlat
          rwa [List.mem_singleton.1 ha]
        rebuild := fun hFields hAux => by
          cases hFields with
          | cons => exact .error_left
          | nil =>
              cases hAux with
              | nil => exact .error_left
              | cons hHead hRest =>
                  cases hRest with
                  | nil => exact .ok hHead
                  | cons => exact .error_left
        check := fun _ => Agree.lift fun _ _ _ _ => trivial
        keepsMode := fun _ => .lift _
        input := fun _ => ResultsAgree.map (R := Unrelated) (fun _ _ _ _ => trivial)
          fun _ _ _ => .empty }

theorem uniform_plain (typeName : String) (h : c.Uniform) : (plain typeName c).Uniform where
  flatten := toFields_agree h
  auxiliary := h.auxiliary
  hostData := hostData_of_toFields h
  rebuild hFields hAux := ofFieldsWithAux_agree h hFields fun _ => hAux
  check := h.check
  keepsMode := h.keepsMode
  input _ := .error_left

theorem uniform_misdeclared (typeName : String) (claims produces : Nat) :
    (misdeclared typeName claims produces).Uniform where
  flatten _ := .ok (List.forall₂_same.2 fun s _ => Signal.Alike.refl s)
  auxiliary _ := .nil
  hostData _ := nofun
  rebuild _ _ := .ok (.of_items .nil)
  check _ := .pure trivial
  keepsMode _ := .pure _
  input _ := .error_left

/-! ## Composites -/

/-- Of alike values both or none stand for a composite. -/
theorem expectRecord_alike (name : String) (h : v.Alike w) :
    (∃ e e', expectRecord name v = .error e ∧ expectRecord name w = .error e') ∨
      ∃ record record', expectRecord name v = .ok record ∧ expectRecord name w = .ok record' ∧
        MembersAlike record record' := by
  have hRecord := h.record?
  unfold expectRecord
  revert hRecord
  generalize v.record? = record?, w.record? = record'?
  rintro (@⟨⟨tag?, record⟩, ⟨_, record'⟩, ⟨rfl, hMembers⟩⟩ | _)
  · rcases tag? with _ | other
    · exact .inr ⟨record, record', rfl, rfl, hMembers⟩
    · by_cases hName : other = name
      · simp only [hName, if_true]
        exact .inr ⟨record, record', rfl, rfl, hMembers⟩
      · simp only [hName, if_false]
        exact .inl ⟨_, _, rfl, rfl⟩
  · exact .inl ⟨_, _, rfl, rfl⟩

theorem expectRecord_agree (name : String) (h : v.Alike w) :
    ResultsAgree MembersAlike (expectRecord name v) (expectRecord name w) := by
  intro record record' hRecord hRecord'
  rcases expectRecord_alike name h with ⟨_, _, hError, -⟩ | ⟨_, _, hv, hw, hMembers⟩
  · rw [hError] at hRecord; cases hRecord
  · rw [hv] at hRecord
    rw [hw] at hRecord'
    cases hRecord; cases hRecord'
    exact hMembers

theorem lookupMember_agree (name : String) {record record' : Entries Value}
    (h : MembersAlike record record') :
    Part.LookupsAgree (lookupMember name record) (lookupMember name record') := by
  intro key item item' hItem hItem'
  have hFound := h.find? key
  rw [lookupMember_eq_ok.1 hItem, lookupMember_eq_ok.1 hItem'] at hFound
  cases hFound with
  | some hAlike => exact hAlike

section

variable {members : List (String × Codec)}

theorem onMembers_agree {α : Type} {R : α → α → Prop} (name : String) {nothing : α}
    {visit : Part.Lookup → Except Error α} (hNothing : R nothing nothing)
    (hVisit : ∀ lookup lookup', Part.LookupsAgree lookup lookup' →
      ResultsAgree R (visit lookup) (visit lookup')) (h : v.Alike w) :
    ResultsAgree R (onMembers name members nothing visit v)
      (onMembers name members nothing visit w) := by
  unfold onMembers
  split
  · exact .ok hNothing
  · exact (expectRecord_agree name h).bind fun _ _ hMembers =>
      hVisit _ _ (lookupMember_agree name hMembers)

theorem uniform_memberParts (h : ∀ m ∈ members, m.2.Uniform) :
    ∀ m ∈ memberParts members, m.2.Uniform := by
  intro m hm
  obtain ⟨member, hMember, rfl⟩ := List.mem_map.1 hm
  exact uniform_part (h member hMember)

/-- A composite with uniform members is uniform. -/
theorem uniform_composite (name : String) (json : Bool) (h : ∀ m ∈ members, m.2.Uniform) :
    (composite name json members).Uniform := by
  have hParts := uniform_memberParts h
  exact {
    flatten := onMembers_agree name .nil fun _ _ hLookup => Part.flattenMembers_agree hParts hLookup
    auxiliary := fun {v w} hAlike => by
      show ValuesAlike ((composite name json members).auxiliary v)
        ((composite name json members).auxiliary w)
      rcases expectRecord_alike name hAlike with ⟨_, _, hv, hw⟩ | ⟨_, _, hv, hw, hMembers⟩
      · rw [auxiliary_composite_error hv, auxiliary_composite_error hw]
        exact .nil
      · rw [auxiliary_composite_ok hv, auxiliary_composite_ok hw]
        exact Part.auxiliaryMembers_alike hParts hMembers
    hostData := fun {v fields} hFlat => by
      show ∀ a ∈ (composite name json members).auxiliary v, a.HostData
      cases hRecord : expectRecord name v with
      | error e =>
          rw [auxiliary_composite_error hRecord]
          exact List.forall_mem_nil _
      | ok record =>
          rw [auxiliary_composite_ok hRecord]
          cases members with
          | nil => exact List.forall_mem_nil _
          | cons m members =>
              have hMembers : (expectRecord name v >>= fun record =>
                  Part.flattenMembers (lookupMember name record) (memberParts (m :: members))) =
                .ok fields := hFlat
              rw [hRecord] at hMembers
              exact Part.hostData_auxiliaryMembers hParts (fun _ _ => lookupMember_eq_ok.1)
                hMembers
    rebuild := fun hFields hAux => by
      refine (ResultsAgree.refl _).bind ?_
      rintro widths _ rfl
      rw [hFields.length_eq, hAux.length_eq]
      dsimp only
      split
      · exact .error_left
      · split
        · exact .error_left
        · exact (Part.rebuildMembers_agree hParts hFields hAux).map fun _ _ hMembers =>
            .record (some name) hMembers
    check := fun {v w} hAlike => by
      show Agree RunsAlike Unrelated (if members.isEmpty then pure () else _)
        (if members.isEmpty then pure () else _)
      split
      · exact .pure trivial
      · exact (Agree.lift (expectRecord_agree name hAlike)).bind fun _ _ hMembers =>
          Part.checkMembers_agree hParts (lookupMember_agree name hMembers)
    keepsMode := fun v => by
      show KeepsMode (if members.isEmpty then pure () else _)
      split
      · exact .pure _
      · exact (KeepsMode.lift _).bind fun _ => Part.checkMembers_keepsMode hParts _
    input := onMembers_agree name .empty fun _ _ hLookup =>
      Part.inputMembers_agree hParts hLookup }

end

theorem auxiliary_deferred_ok {typeName : String} {width : Unit → Except Error Width}
    {capabilities : Capabilities} {build : Nat → Except Error Codec} {v : Value}
    (h : build v.height = .ok c) :
    (deferred typeName width capabilities build).auxiliary v = c.auxiliary v := by
  unfold deferred
  simp only [h]

theorem auxiliary_deferred_error {typeName : String} {width : Unit → Except Error Width}
    {capabilities : Capabilities} {build : Nat → Except Error Codec} {v : Value} {e : Error}
    (h : build v.height = .error e) :
    (deferred typeName width capabilities build).auxiliary v = [] := by
  unfold deferred
  simp only [h]

/-- A codec that is built when it is used is uniform if what is built is. -/
theorem uniform_deferred (typeName : String) (width : Unit → Except Error Width)
    (capabilities : Capabilities) {build : Nat → Except Error Codec}
    (h : ∀ size c, build size = .ok c → c.Uniform) :
    (deferred typeName width capabilities build).Uniform := by
  have hBuild (size : Nat) : ResultsAgree (fun c d => c = d ∧ c.Uniform) (build size)
      (build size) := by
    intro c d hc hd
    rw [hc] at hd
    exact ⟨Except.ok.inj hd, h size c hc⟩
  exact {
    flatten := fun {v w} hAlike => by
      show ResultsAgree SignalsAlike (build v.height >>= fun c => c.flatten v)
        (build w.height >>= fun c => c.flatten w)
      rw [hAlike.height_eq]
      refine (hBuild _).bind ?_
      rintro c _ ⟨rfl, hc⟩
      exact hc.flatten hAlike
    auxiliary := fun {v w} hAlike => by
      show ValuesAlike ((deferred typeName width capabilities build).auxiliary v)
        ((deferred typeName width capabilities build).auxiliary w)
      cases hc : build w.height with
      | error e =>
          rw [auxiliary_deferred_error hc,
            auxiliary_deferred_error ((congrArg build hAlike.height_eq).trans hc)]
          exact .nil
      | ok c =>
          rw [auxiliary_deferred_ok hc,
            auxiliary_deferred_ok ((congrArg build hAlike.height_eq).trans hc)]
          exact (h _ c hc).auxiliary hAlike
    hostData := fun {v fields} hFlat => by
      obtain ⟨c, hc, hOut⟩ := bind_eq_ok.1 hFlat
      show ∀ a ∈ (deferred typeName width capabilities build).auxiliary v, a.HostData
      rw [auxiliary_deferred_ok hc]
      exact (h _ c hc).hostData hOut
    rebuild := fun {fields fields' aux aux'} hFields hAux => by
      show ResultsAgree Value.Alike
        (build (fields.length + aux.length) >>= fun c => c.rebuild fields aux)
        (build (fields'.length + aux'.length) >>= fun c => c.rebuild fields' aux')
      rw [hFields.length_eq, hAux.length_eq]
      refine (hBuild _).bind ?_
      rintro c _ ⟨rfl, hc⟩
      exact hc.rebuild hFields hAux
    check := fun {v w} hAlike => by
      show Agree RunsAlike Unrelated (liftM (build v.height) >>= fun c => c.check v)
        (liftM (build w.height) >>= fun c => c.check w)
      rw [hAlike.height_eq]
      refine (Agree.lift (hBuild _)).bind ?_
      rintro c _ ⟨rfl, hc⟩
      exact hc.check hAlike
    keepsMode := fun v runs => by
      show activeMode? ((liftM (build v.height) >>= fun c => c.check v : Circuit Unit) runs).2 = _
      cases hc : build v.height with
      | error e => rfl
      | ok c => exact (h _ c hc).keepsMode v runs
    input := fun {v w} hAlike => by
      show ResultsAgree HashInput.Alike (build v.height >>= fun c => c.input v)
        (build w.height >>= fun c => c.input w)
      rw [hAlike.height_eq]
      refine (hBuild _).bind ?_
      rintro c _ ⟨rfl, hc⟩
      exact hc.input hAlike }

end Codec

/-! ## Types -/

/-- Everything that codecs are assembled with keeps them uniform. -/
theorem Part.compositional_uniform : Part.Compositional Part.Uniform where
  leaf := Codec.uniform_leaf
  part h := Codec.uniform_part h
  withWidth h _ :=
    { flatten := h.flatten, auxiliary := h.auxiliary, hostData := h.hostData
      rebuild := h.rebuild, check := h.check, keepsMode := h.keepsMode, input := h.input }
  ofPart h := Codec.uniform_ofPart h
  sequence typeName _ h := Part.uniform_sequence typeName h
  replicated typeName _ h := Part.uniform_replicated typeName h
  object typeName _ h := Part.uniform_object typeName h
  constant := Part.uniform_constant
  composite name json _ h := Codec.uniform_composite name json h
  deferred typeName width capabilities _ h :=
    Codec.uniform_deferred typeName width capabilities h
  plain typeName _ h := Codec.uniform_plain typeName h
  misdeclared := Codec.uniform_misdeclared

/-- The codec of a type is uniform, whatever is registered. -/
theorem Registry.uniform_codec (r : Registry) (d : Descriptor) : (r.codec d).Uniform :=
  Part.compositional_uniform.codec r d

end TypedCircuit
