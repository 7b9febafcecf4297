import TypedCircuit.Proofs.Passes.Codecs
import TypedCircuit.Proofs.Reduction.Computations

/-!
# Types in a pass that lacks something

A part is *robust* if it works on what is left of a value wherever it works on the value: it
flattens to what is left of the elements, carries what is left of the auxiliary entries, comes back
as what is left, and is checked where the value is.

A value is refused for its form, or because a known value breaks a rule. The form is not lost, and
what is not known cannot be refused. The one thing in which a reduced value has another form is
host data, and wherever host data is accepted a null is. So all types are robust, whatever is
registered.

## Main results

* `Part.robust_sequence`, `Part.robust_replicated`, `Part.robust_object`, `Part.robust_constant` —
  positions of robust parts.
* `Registry.robust_codec` — the codec of a type is robust.
-/

namespace TypedCircuit

open Value (MembersReduce)

/-- A part works on what is left of a value wherever it works on the value. -/
structure Part.Robust (p : Part) : Prop where
  flatten {loss : Loss} {v w : Value} (h : v.Reduces loss w) :
    ResultFollows (SignalsReduce loss) (p.flatten v) (p.flatten w)
  auxiliary {loss : Loss} {v w : Value} (h : v.Reduces loss w) :
    ValuesReduce loss (p.auxiliary v) (p.auxiliary w)
  rebuild {loss : Loss} {fields fields' : List Signal} {aux aux' : List Value}
    (hFields : SignalsReduce loss fields fields') (hAux : ValuesReduce loss aux aux') :
    ResultFollows (Value.Reduces loss) (p.rebuild fields aux) (p.rebuild fields' aux')
  check {loss : Loss} {v w : Value} (h : v.Reduces loss w) :
    Follows (RunsReduce loss) Unrelated (p.check v) (p.check w)

variable {loss : Loss}

theorem valuesReduce_getD {α β : Type} {R : α → β → Prop} {a? : Option α} {b? : Option β}
    (h : Option.Rel R a? b?) {f : α → List Value} {g : β → List Value}
    (hNext : ∀ a b, R a b → ValuesReduce loss (f a) (g b)) :
    ValuesReduce loss ((a?.map f).getD []) ((b?.map g).getD []) := by
  cases h with
  | none => exact .nil
  | some hab => exact hNext _ _ hab

/-- What may be left of a share. -/
def ShareReduces (loss : Loss) (share share' : List Signal × List Value) : Prop :=
  SignalsReduce loss share.1 share'.1 ∧ ValuesReduce loss share.2 share'.2

theorem shares_reduce (widths : List Width) {fields fields' : List Signal} {aux aux' : List Value}
    (hFields : SignalsReduce loss fields fields') (hAux : ValuesReduce loss aux aux') :
    List.Forall₂ (ShareReduces loss) (shares widths fields aux) (shares widths fields' aux') := by
  induction widths generalizing fields fields' aux aux' with
  | nil => exact .nil
  | cons w widths ih =>
      rw [shares_cons, shares_cons]
      exact .cons ⟨List.forall₂_take _ hFields, List.forall₂_take _ hAux⟩
        (ih (List.forall₂_drop _ hFields) (List.forall₂_drop _ hAux))

namespace Part

/-! ## Items -/

section

variable {parts : List Part} {items items' : List Value}

theorem flattenAll_follows (h : ∀ p ∈ parts, p.Robust) (hItems : ValuesReduce loss items items') :
    ResultFollows (SignalsReduce loss) (flattenAll parts items) (flattenAll parts items') := by
  refine ResultFollows.bind (ResultFollows.mapM (forall₂_zip_zip (forall₂_self h) hItems) ?_)
    fun _ _ hChunks => .ok (List.rel_flatten hChunks)
  rintro ⟨p, v⟩ ⟨_, w⟩ ⟨⟨rfl, hp⟩, hItem⟩
  exact hp.flatten hItem

theorem auxiliaryAll_reduces (h : ∀ p ∈ parts, p.Robust)
    (hItems : ValuesReduce loss items items') :
    ValuesReduce loss (auxiliaryAll parts items) (auxiliaryAll parts items') := by
  refine List.rel_flatMap (forall₂_zip_zip (forall₂_self h) hItems) ?_
  rintro ⟨p, v⟩ ⟨_, w⟩ ⟨⟨rfl, hp⟩, hItem⟩
  exact hp.auxiliary hItem

theorem rebuildAll_follows (h : ∀ p ∈ parts, p.Robust)
    {shares shares' : List (List Signal × List Value)}
    (hShares : List.Forall₂ (ShareReduces loss) shares shares') :
    ResultFollows (ValuesReduce loss) (rebuildAll parts shares) (rebuildAll parts shares') := by
  refine ResultFollows.mapM (forall₂_zip_zip (forall₂_self h) hShares) ?_
  rintro ⟨p, share⟩ ⟨_, share'⟩ ⟨⟨rfl, hp⟩, hShare⟩
  exact hp.rebuild hShare.1 hShare.2

theorem checkAll_follows (h : ∀ p ∈ parts, p.Robust) (hItems : ValuesReduce loss items items') :
    Follows (RunsReduce loss) Unrelated (checkAll parts items) (checkAll parts items') := by
  refine Follows.forM (forall₂_zip_zip (forall₂_self h) hItems) ?_
  rintro ⟨p, v⟩ ⟨_, w⟩ ⟨⟨rfl, hp⟩, hItem⟩
  exact hp.check hItem

theorem expectItems_follows (typeName : String) (count : Nat) {v w : Value}
    (h : v.Reduces loss w) :
    ResultFollows (ValuesReduce loss) (expectItems typeName count v)
      (expectItems typeName count w) := by
  intro items hOk
  obtain ⟨rfl, rfl⟩ := expectItems_eq_ok.1 hOk
  cases h with
  | array h =>
      have hItems := Value.itemsReduce_iff.1 h
      exact ⟨_, expectItems_eq_ok.2 ⟨rfl, hItems.length_eq.symm⟩, hItems⟩

/-- A position that lists robust parts is robust. -/
theorem robust_sequence (typeName : String) (h : ∀ p ∈ parts, p.Robust) :
    (sequence typeName parts).Robust where
  flatten hValue := (expectItems_follows _ _ hValue).bind fun _ _ hItems =>
    flattenAll_follows h hItems
  auxiliary hValue := valuesReduce_getD hValue.items? fun _ _ => auxiliaryAll_reduces h
  rebuild hFields hAux := by
    refine (ResultFollows.refl _).bind ?_
    rintro widths _ rfl
    exact (rebuildAll_follows h (shares_reduce widths hFields hAux)).bind fun _ _ hItems =>
      .ok (.of_items hItems)
  check hValue := (Follows.lift (expectItems_follows _ _ hValue)).bind fun _ _ hItems =>
    checkAll_follows h hItems

/-- A position that holds items of one robust part is robust. -/
theorem robust_replicated (typeName : String) {p : Part} (h : p.Robust) (count : Nat) :
    (replicated typeName p count).Robust := by
  have hCopies : ∀ q ∈ List.replicate count p, q.Robust := fun q hq =>
    List.eq_of_mem_replicate hq ▸ h
  have hSequence := robust_sequence typeName hCopies
  refine ⟨fun {loss v w} hValue => ?_, fun hValue => ?_,
    fun {loss fields fields' aux aux'} hFields hAux => ?_, fun {loss v w} hValue => ?_⟩
  · rw [replicated_flatten, replicated_flatten]
    exact hSequence.flatten hValue
  · exact valuesReduce_getD hValue.items? fun _ _ hItems =>
      List.rel_flatMap hItems fun _ _ hItem => h.auxiliary hItem
  · rw [replicated_rebuild_eq, replicated_rebuild_eq]
    refine (ResultFollows.refl _).bind ?_
    rintro width _ rfl
    exact (rebuildAll_follows hCopies (shares_reduce _ hFields hAux)).bind fun _ _ hItems =>
      .ok (.of_items hItems)
  · rw [replicated_check, replicated_check]
    exact hSequence.check hValue

end

/-! ## Members -/

section

variable {members : List (String × Part)} {lookup lookup' : Lookup}
  {record record' : Entries Value}

/-- The second look-up finds what is left of each member that the first one finds. -/
def LookupFollows (loss : Loss) (lookup lookup' : Lookup) : Prop :=
  ∀ name, ResultFollows (Value.Reduces loss) (lookup name) (lookup' name)

theorem flattenMembers_follows (h : ∀ m ∈ members, m.2.Robust)
    (hLookup : LookupFollows loss lookup lookup') :
    ResultFollows (SignalsReduce loss) (flattenMembers lookup members)
      (flattenMembers lookup' members) := by
  refine ResultFollows.bind (ResultFollows.mapM (forall₂_self h) ?_) fun _ _ hChunks =>
    .ok (List.rel_flatten hChunks)
  rintro m _ ⟨rfl, hm⟩
  exact (hLookup m.1).bind fun _ _ hMember => hm.flatten hMember

theorem auxiliaryMembers_reduces (h : ∀ m ∈ members, m.2.Robust)
    (hRecord : MembersReduce loss record record') :
    ValuesReduce loss (auxiliaryMembers members record) (auxiliaryMembers members record') := by
  refine List.rel_flatMap (forall₂_self h) ?_
  rintro m _ ⟨rfl, hm⟩
  exact valuesReduce_getD (hRecord.find? m.1) fun _ _ hMember => hm.auxiliary hMember

theorem rebuildMembers_follows (h : ∀ m ∈ members, m.2.Robust) {fields fields' : List Signal}
    {aux aux' : List Value} (hFields : SignalsReduce loss fields fields')
    (hAux : ValuesReduce loss aux aux') :
    ResultFollows (MembersReduce loss) (rebuildMembers members fields aux)
      (rebuildMembers members fields' aux') := by
  refine (ResultFollows.refl _).bind ?_
  rintro widths _ rfl
  refine ResultFollows.bind (ResultFollows.mapM (R := fun x y => x.1 = y.1 ∧ x.2.Reduces loss y.2)
    (forall₂_zip_zip (forall₂_self h) (shares_reduce widths hFields hAux)) ?_)
    fun _ _ hRebuilt => .ok (Value.membersReduce_iff.2 hRebuilt).ofList
  rintro ⟨m, share⟩ ⟨_, share'⟩ ⟨⟨rfl, hm⟩, hShare⟩
  exact (hm.rebuild hShare.1 hShare.2).bind fun _ _ hMember => .ok ⟨rfl, hMember⟩

theorem checkMembers_follows (h : ∀ m ∈ members, m.2.Robust)
    (hLookup : LookupFollows loss lookup lookup') :
    Follows (RunsReduce loss) Unrelated (checkMembers lookup members)
      (checkMembers lookup' members) := by
  refine Follows.forM (forall₂_self h) ?_
  rintro m _ ⟨rfl, hm⟩
  exact (Follows.lift (hLookup m.1)).bind fun _ _ hMember => hm.check hMember

theorem lookupKey_follows (typeName : String) {v w : Value} (h : v.Reduces loss w) :
    LookupFollows loss (lookupKey typeName v) (lookupKey typeName w) := by
  intro name item hItem
  obtain ⟨tag?, record, rfl, hFind⟩ := lookupKey_eq_ok.1 hItem
  cases h with
  | @record _ _ record' hRecord =>
      obtain ⟨item', hFind', hMember⟩ := hRecord.exists_find? hFind
      exact ⟨item', lookupKey_eq_ok.2 ⟨tag?, record', rfl, hFind'⟩, hMember⟩

/-- An object of robust parts is robust. -/
theorem robust_object (typeName : String) (h : ∀ m ∈ members, m.2.Robust) :
    (object typeName members).Robust where
  flatten hValue := flattenMembers_follows h (lookupKey_follows typeName hValue)
  auxiliary hValue := valuesReduce_getD hValue.record? fun _ _ hRecord =>
    auxiliaryMembers_reduces h hRecord.2
  rebuild hFields hAux := (rebuildMembers_follows h hFields hAux).map fun _ _ hMembers =>
    .record none hMembers
  check hValue := checkMembers_follows h (lookupKey_follows typeName hValue)

/-- A fixed primitive stays what it is. -/
theorem expectConstant_follows (typeName : String) (json : Json) {v w : Value}
    (h : v.Reduces loss w) :
    ResultFollows Unrelated (expectConstant typeName json v) (expectConstant typeName json w) := by
  cases h with
  | primitive other => exact (ResultFollows.refl _).imp fun _ _ _ => trivial
  | signal | bit | array | record | kept | blanked => exact .error

/-- A fixed primitive is robust. -/
theorem robust_constant (typeName : String) (json : Json) :
    (constant typeName json).Robust where
  flatten hValue := (expectConstant_follows typeName json hValue).map fun _ _ _ => .nil
  auxiliary _ := .nil
  rebuild _ _ := .ok (.primitive json)
  check hValue := Follows.lift (expectConstant_follows typeName json hValue)

end

end Part

/-! ## Codecs -/

namespace Codec

/-- A codec works on what is left of a value wherever it works on the value, before any count is
verified. -/
def Robust (c : Codec) : Prop := c.uncounted.Robust

variable {c : Codec} {v w : Value} {fields fields' : List Signal} {aux aux' : List Value}

theorem toFields_follows (h : c.Robust) (hValue : v.Reduces loss w) :
    ResultFollows (SignalsReduce loss) (c.toFields v) (c.toFields w) := by
  refine (h.flatten hValue).bind fun out out' hOut => (ResultFollows.refl _).bind ?_
  rintro width _ rfl
  rw [hOut.length_eq]
  split
  · exact .ok hOut
  · exact .error

/-- Shares come back as what is left of the value. Auxiliary entries matter only if there are as
many as the type takes. -/
theorem ofFieldsWithAux_follows (h : c.Robust) (hFields : SignalsReduce loss fields fields')
    (hAux : ∀ width, c.width () = .ok width → aux.length = width.aux →
      ValuesReduce loss aux aux') :
    ResultFollows (Value.Reduces loss) (c.ofFieldsWithAux fields aux)
      (c.ofFieldsWithAux fields' aux') := by
  intro v hOk
  obtain ⟨width, hWidth, hLength, hOk⟩ := ofFieldsWithAux_eq_ok.1 hOk
  have hReduced := hAux width hWidth hLength
  obtain ⟨w, hBack, hValue⟩ := h.rebuild hFields hReduced v hOk
  exact ⟨w, ofFieldsWithAux_eq_ok.2 ⟨width, hWidth, hReduced.length_eq ▸ hLength, hBack⟩, hValue⟩

/-- A robust codec is robust at a position. -/
theorem robust_part (h : c.Robust) : c.part.Robust where
  flatten := toFields_follows h
  auxiliary := h.auxiliary
  rebuild hFields hAux := ofFieldsWithAux_follows h hFields fun _ _ _ => hAux
  check := h.check

/-- The type that takes exactly the counts of a robust part is robust. -/
theorem robust_ofPart {p : Part} (h : p.Robust) (capabilities : Capabilities) :
    (ofPart p capabilities).Robust where
  flatten := h.flatten
  auxiliary := h.auxiliary
  rebuild hFields hAux := by
    refine (ResultFollows.refl _).bind ?_
    rintro width _ rfl
    rw [hFields.length_eq, hAux.length_eq]
    split
    · exact .error
    · split
      · exact .error
      · exact h.rebuild hFields hAux
  check := h.check

/-! ## The built-in types and types of the user -/

theorem expectSignal_follows (typeName : String) (h : v.Reduces loss w) :
    ResultFollows (Signal.Reduces loss) (expectSignal typeName v) (expectSignal typeName w) := by
  intro s hs
  rw [expectSignal_eq_ok.1 hs] at h
  cases h with
  | @signal _ t h => exact ⟨t, rfl, h⟩

theorem expectBit_follows (h : v.Reduces loss w) :
    ResultFollows (Bit.Reduces loss) (expectBit v) (expectBit w) := by
  intro a ha
  rw [expectBit_eq_ok.1 ha] at h
  cases h with
  | @bit _ b h => exact ⟨b, rfl, h⟩

/-- What is left of host data is accepted as host data. -/
theorem expectOpaque_follows (h : v.Reduces loss w) :
    ResultFollows Unrelated (expectOpaque v) (expectOpaque w) := by
  rintro ⟨⟩ hHostData
  exact ⟨(), Value.HostData.of_reduces hHostData h, trivial⟩

theorem single_follows (typeName : String) (h : SignalsReduce loss fields fields') :
    ResultFollows (Signal.Reduces loss) (single typeName fields) (single typeName fields') := by
  cases h with
  | nil => exact .error
  | cons hHead hRest =>
      cases hRest with
      | nil => exact .ok hHead
      | cons => exact .error

theorem rebuildOpaque_follows (hFields : SignalsReduce loss fields fields')
    (hAux : ValuesReduce loss aux aux') :
    ResultFollows (Value.Reduces loss) (rebuildOpaque fields aux)
      (rebuildOpaque fields' aux') := by
  cases hFields with
  | cons => exact .error
  | nil =>
      cases hAux with
      | nil => exact .error
      | cons hHead hRest =>
          cases hRest with
          | nil => exact .ok hHead
          | cons => exact .error

theorem robust_leaf (leaf : Leaf) : leaf.codec.Robust := by
  cases leaf with
  | field =>
      exact {
        flatten := fun h => (expectSignal_follows _ h).map fun _ _ hs => .cons hs .nil
        auxiliary := fun _ => .nil
        rebuild := fun hFields _ => (single_follows _ hFields).map fun _ _ hs => .signal hs
        check := fun _ => .pure trivial }
  | boolean =>
      exact {
        flatten := fun h => (expectBit_follows h).map fun _ _ hb => .cons hb .nil
        auxiliary := fun _ => .nil
        rebuild := fun hFields _ => (single_follows _ hFields).map fun _ _ hs => .bit hs
        check := fun h => (Follows.lift (expectBit_follows h)).bind fun _ _ hb =>
          Signal.assertBoolean_follows hb }
  | uint32 =>
      exact {
        flatten := fun h => (expectSignal_follows _ h).map fun _ _ hs => .cons hs .nil
        auxiliary := fun _ => .nil
        rebuild := fun hFields _ => (single_follows _ hFields).map fun _ _ hs => .signal hs
        check := fun h => (Follows.lift (expectSignal_follows _ h)).bind fun _ _ hs =>
          Signal.assertRange_follows hs 32 }
  | opaqueHost =>
      exact {
        flatten := fun h => (expectOpaque_follows h).map fun _ _ _ => .nil
        auxiliary := fun h => .cons h .nil
        rebuild := rebuildOpaque_follows
        check := fun h => Follows.lift (expectOpaque_follows h) }

theorem robust_plain (typeName : String) (h : c.Robust) : (plain typeName c).Robust where
  flatten := toFields_follows h
  auxiliary := h.auxiliary
  rebuild hFields hAux := ofFieldsWithAux_follows h hFields fun _ _ _ => hAux
  check := h.check

theorem robust_misdeclared (typeName : String) (claims produces : Nat) :
    (misdeclared typeName claims produces).Robust where
  flatten _ := .ok (.refl _)
  auxiliary _ := .nil
  rebuild _ _ := .ok (.of_items .nil)
  check _ := .pure trivial

/-! ## Composites -/

theorem expectRecord_follows (name : String) (h : v.Reduces loss w) :
    ResultFollows (MembersReduce loss) (expectRecord name v) (expectRecord name w) := by
  intro record hOk
  cases h with
  | @record tag? _ record' hMembers =>
      rcases tag? with _ | other
      · cases hOk
        exact ⟨record', rfl, hMembers⟩
      · by_cases hName : other = name
        · simp only [expectRecord, Value.record?, hName, if_true] at hOk ⊢
          cases hOk
          exact ⟨record', rfl, hMembers⟩
        · simp only [expectRecord, Value.record?, hName, if_false] at hOk
          cases hOk
  | signal | bit | array | primitive | kept | blanked => cases hOk

theorem lookupMember_follows (name : String) {record record' : Entries Value}
    (h : MembersReduce loss record record') :
    Part.LookupFollows loss (lookupMember name record) (lookupMember name record') := by
  intro key item hItem
  obtain ⟨item', hFind, hMember⟩ := h.exists_find? (lookupMember_eq_ok.1 hItem)
  exact ⟨item', lookupMember_eq_ok.2 hFind, hMember⟩

section

variable {members : List (String × Codec)}

theorem robust_memberParts (h : ∀ m ∈ members, m.2.Robust) :
    ∀ m ∈ memberParts members, m.2.Robust := by
  intro m hm
  obtain ⟨member, hMember, rfl⟩ := List.mem_map.1 hm
  exact robust_part (h member hMember)

/-- A composite with robust members is robust. -/
theorem robust_composite (name : String) (json : Bool) (h : ∀ m ∈ members, m.2.Robust) :
    (composite name json members).Robust := by
  have hParts := robust_memberParts h
  exact {
    flatten := fun {_ v w} hValue => by
      show ResultFollows _ (if members.isEmpty then .ok [] else _)
        (if members.isEmpty then .ok [] else _)
      split
      · exact .ok .nil
      · exact (expectRecord_follows name hValue).bind fun _ _ hMembers =>
          Part.flattenMembers_follows hParts (lookupMember_follows name hMembers)
    auxiliary := fun {_ v w} hValue => by
      show ValuesReduce _ ((composite name json members).auxiliary v)
        ((composite name json members).auxiliary w)
      rcases expectRecord_alike name hValue.alike with ⟨_, _, hv, hw⟩ | ⟨record, _, hv, -, -⟩
      · rw [auxiliary_composite_error hv, auxiliary_composite_error hw]
        exact .nil
      · obtain ⟨record', hw, hMembers⟩ := expectRecord_follows name hValue record hv
        rw [auxiliary_composite_ok hv, auxiliary_composite_ok hw]
        exact Part.auxiliaryMembers_reduces hParts hMembers
    rebuild := fun hFields hAux => by
      refine (ResultFollows.refl _).bind ?_
      rintro widths _ rfl
      rw [hFields.length_eq, hAux.length_eq]
      dsimp only
      split
      · exact .error
      · split
        · exact .error
        · exact (Part.rebuildMembers_follows hParts hFields hAux).map fun _ _ hMembers =>
            .record (some name) hMembers
    check := fun {_ v w} hValue => by
      show Follows _ Unrelated (if members.isEmpty then pure () else _)
        (if members.isEmpty then pure () else _)
      split
      · exact .pure trivial
      · exact (Follows.lift (expectRecord_follows name hValue)).bind fun _ _ hMembers =>
          Part.checkMembers_follows hParts (lookupMember_follows name hMembers) }

end

/-- A codec that is built when it is used is robust if what is built is. -/
theorem robust_deferred (typeName : String) (width : Unit → Except Error Width)
    (capabilities : Capabilities) {build : Nat → Except Error Codec}
    (h : ∀ size c, build size = .ok c → c.Robust) :
    (deferred typeName width capabilities build).Robust := by
  have hBuild (size : Nat) : ResultFollows (fun c d => c = d ∧ c.Robust) (build size)
      (build size) := fun c hc => ⟨c, hc, rfl, h size c hc⟩
  exact {
    flatten := fun {loss v w} hValue => by
      show ResultFollows (SignalsReduce loss) (build v.height >>= fun c => c.flatten v)
        (build w.height >>= fun c => c.flatten w)
      rw [hValue.alike.height_eq]
      refine (hBuild _).bind ?_
      rintro c _ ⟨rfl, hc⟩
      exact hc.flatten hValue
    auxiliary := fun {loss v w} hValue => by
      show ValuesReduce loss ((deferred typeName width capabilities build).auxiliary v)
        ((deferred typeName width capabilities build).auxiliary w)
      cases hc : build w.height with
      | error e =>
          rw [auxiliary_deferred_error hc,
            auxiliary_deferred_error ((congrArg build hValue.alike.height_eq).trans hc)]
          exact .nil
      | ok c =>
          rw [auxiliary_deferred_ok hc,
            auxiliary_deferred_ok ((congrArg build hValue.alike.height_eq).trans hc)]
          exact (h _ c hc).auxiliary hValue
    rebuild := fun {loss fields fields' aux aux'} hFields hAux => by
      show ResultFollows (Value.Reduces loss)
        (build (fields.length + aux.length) >>= fun c => c.rebuild fields aux)
        (build (fields'.length + aux'.length) >>= fun c => c.rebuild fields' aux')
      rw [hFields.length_eq, hAux.length_eq]
      refine (hBuild _).bind ?_
      rintro c _ ⟨rfl, hc⟩
      exact hc.rebuild hFields hAux
    check := fun {loss v w} hValue => by
      show Follows (RunsReduce loss) Unrelated (liftM (build v.height) >>= fun c => c.check v)
        (liftM (build w.height) >>= fun c => c.check w)
      rw [hValue.alike.height_eq]
      refine (Follows.lift (hBuild _)).bind ?_
      rintro c _ ⟨rfl, hc⟩
      exact hc.check hValue }

end Codec

/-! ## Types -/

/-- Everything that codecs are assembled with keeps them robust. -/
theorem Part.compositional_robust : Part.Compositional Part.Robust where
  leaf := Codec.robust_leaf
  part h := Codec.robust_part h
  withWidth h _ :=
    { flatten := h.flatten, auxiliary := h.auxiliary, rebuild := h.rebuild, check := h.check }
  ofPart h := Codec.robust_ofPart h
  sequence typeName _ h := Part.robust_sequence typeName h
  replicated typeName _ h := Part.robust_replicated typeName h
  object typeName _ h := Part.robust_object typeName h
  constant := Part.robust_constant
  composite name json _ h := Codec.robust_composite name json h
  deferred typeName width capabilities _ h :=
    Codec.robust_deferred typeName width capabilities h
  plain typeName _ h := Codec.robust_plain typeName h
  misdeclared := Codec.robust_misdeclared

/-- The codec of a type is robust, whatever is registered. -/
theorem Registry.robust_codec (r : Registry) (d : Descriptor) : (r.codec d).Robust :=
  Part.compositional_robust.codec r d

end TypedCircuit
