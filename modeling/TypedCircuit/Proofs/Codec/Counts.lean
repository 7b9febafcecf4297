import TypedCircuit.Proofs.Codec.Structural
import TypedCircuit.Proofs.Codec.Total

/-!
# Counts decide acceptance

Whether elements and auxiliary entries come back as a value of a regular type is decided by
their numbers alone. A regular type is total: with the right numbers there always is a value,
which gives the entries back as they were, and the elements too unless an entry is no host
data. With other numbers the count is refused.

Registered types make an exception: they ignore elements beyond their own. It is an exception
of the outermost type only. Inside a larger type every part is handed exactly its share.

## Main results

* `Descriptor.Regular.total` — the codec of a regular type takes every share of its counts.
* `Descriptor.Regular.counts` — what it does with other numbers of elements.
-/

namespace TypedCircuit

/-! ## Regular types are total -/

namespace Part

/-- A part takes every share of some counts. -/
def IsTotal (p : Part) : Prop := ∃ width, p.Total width

theorem isTotal_sequence {parts : List Part} (h : ∀ p ∈ parts, p.IsTotal)
    (typeName : String) : (sequence typeName parts).IsTotal := by
  obtain ⟨ws, hws⟩ := exists_forall₂ h
  exact ⟨_, total_sequence hws typeName⟩

theorem Keyed.isTotal {p : Part} {members : List (String × Part)} {tag? : Option String}
    {lookup : Value → Lookup} (hp : p.Keyed members tag? lookup)
    (h : ∀ m ∈ members, m.2.IsTotal) (hNodup : (members.map Prod.fst).Nodup) : p.IsTotal := by
  have hParts : ∀ q ∈ members.map Prod.snd, q.IsTotal := by
    intro q hq
    obtain ⟨m, hm, rfl⟩ := List.mem_map.1 hq
    exact h m hm
  obtain ⟨ws, hws⟩ := exists_forall₂ hParts
  exact ⟨_, hp.total hws hNodup⟩

/-- Every way to assemble parts keeps them total. -/
theorem structural_isTotal : Structural IsTotal where
  leaf type := ⟨type.width, type.total⟩
  part := fun ⟨width, h⟩ => ⟨width, Codec.total_part h⟩
  ofPart := fun ⟨width, h⟩ capabilities => ⟨width, Codec.total_ofPart h capabilities⟩
  withWidth := fun ⟨width, h⟩ hWidth =>
    ⟨width, h.of_agree hWidth.symm (fun _ _ _ _ _ => rfl) (fun _ => rfl) fun _ _ _ _ => rfl⟩
  sequence typeName _ h := isTotal_sequence h typeName
  replicated typeName _ := fun ⟨_, h⟩ count => ⟨_, total_replicated h typeName count⟩
  keyed hp h hNodup := hp.isTotal h hNodup
  constant typeName json := ⟨_, total_constant typeName json⟩
  plain typeName _ := fun ⟨width, h⟩ => ⟨width, Codec.total_plain h typeName⟩

end Part

/-- The codec of a regular type takes every share of its counts. -/
theorem Descriptor.Regular.total {r : Registry} {d : Descriptor} (h : d.Regular r) :
    (r.codec d).part.IsTotal := Part.structural_isTotal.regular h

/-! ## Other counts -/

/-- Whether a type ignores elements beyond its own: a registered type does, and so does a type
of the user with the values of one. -/
def Descriptor.ignoresSurplus : Descriptor → Bool
  | .composite _ _ | .unregistered _ => true
  | .plain inner => inner.ignoresSurplus
  | .leaf _ | .array _ _ | .tuple _ | .structural _ | .misdeclared _ _ => false

/-- Shares are taken from the front, so what lies beyond the last one does not matter. -/
theorem shares_take (ws : List Width) (fields : List Signal) (aux : List Value) :
    shares ws (fields.take (Width.sum ws).fields) aux = shares ws fields aux := by
  induction ws generalizing fields aux with
  | nil => rfl
  | cons w ws ih =>
      have hLe : w.fields ≤ w.fields + (Width.sum ws).fields := Nat.le_add_right _ _
      rw [shares_cons, shares_cons, Width.sum_cons, Width.add_fields, List.take_take,
        Nat.min_eq_left hLe, List.drop_take, Nat.add_sub_cancel_left, ih]

namespace Codec

/-- How a codec answers to a number of elements that is not its own, with the right number of
auxiliary entries. -/
structure Counts (c : Codec) (width : Width) (ignoresSurplus : Bool) : Prop where
  width_eq : c.width () = .ok width
  refuse {fields : List Signal} {aux : List Value} (hAux : aux.length = width.aux)
    (hFields : fields.length ≠ width.fields)
    (h : fields.length < width.fields ∨ ignoresSurplus = false) :
    ∃ typeName, c.rebuild fields aux = .error (.elements typeName width.fields fields.length)
  ignore {fields : List Signal} {aux : List Value} (hAux : aux.length = width.aux)
    (hFields : width.fields < fields.length) (h : ignoresSurplus = true) :
    c.rebuild fields aux = c.rebuild (fields.take width.fields) aux

variable {c : Codec} {width : Width}

theorem ofFieldsWithAux_refused {fields : List Signal} {aux : List Value}
    (hWidth : c.width () = .ok width) (hAux : aux.length ≠ width.aux) :
    c.ofFieldsWithAux fields aux = .error (.auxiliary c.typeName width.aux aux.length) := by
  unfold ofFieldsWithAux
  rw [hWidth]
  exact if_neg hAux

/-- A codec that counts exactly refuses every other number. -/
theorem counts_ofPart {p : Part} (hWidth : p.width () = .ok width)
    (capabilities : Capabilities) : (ofPart p capabilities).Counts width false where
  width_eq := hWidth
  refuse {fields aux} hAux hFields _ := by
    refine ⟨p.typeName, ?_⟩
    show rebuildExactly p fields aux = _
    unfold rebuildExactly
    rw [hWidth]
    exact if_pos hFields
  ignore _ _ h := nomatch h

/-- A composite refuses fewer elements than its own and ignores more. -/
theorem counts_composite {name : String} {json : Bool} {members : List (String × Codec)}
    (hWidth : (composite name json members).width () = .ok width) :
    (composite name json members).Counts width true := by
  obtain ⟨ws, hws, rfl⟩ := map_eq_ok.1 hWidth
  refine ⟨hWidth, fun {fields aux} hAux hFields h => ?_, fun {fields aux} hAux hFields _ => ?_⟩
  · have hLess : fields.length < (Width.sum ws).fields := h.resolve_right nofun
    refine ⟨name, ?_⟩
    show rebuildComposite name members fields aux = _
    unfold rebuildComposite
    rw [hws]
    exact if_pos hLess
  · have hTake : (fields.take (Width.sum ws).fields).length = (Width.sum ws).fields := by
      rw [List.length_take]; omega
    show rebuildComposite name members fields aux =
      rebuildComposite name members (fields.take (Width.sum ws).fields) aux
    unfold rebuildComposite
    rw [hws]
    show (if fields.length < (Width.sum ws).fields then _ else
        if aux.length ≠ (Width.sum ws).aux then _ else _) =
      (if (fields.take (Width.sum ws).fields).length < (Width.sum ws).fields then _ else
        if aux.length ≠ (Width.sum ws).aux then _ else _)
    rw [if_neg (by omega), if_neg (by omega), if_neg (by omega), if_neg (by omega),
      Part.rebuildMembers_eq hws, Part.rebuildMembers_eq hws, shares_take]

/-- A type of the user answers as the type does that has its values. -/
theorem Counts.plain {ignoresSurplus : Bool} (h : c.Counts width ignoresSurplus)
    (typeName : String) : (Codec.plain typeName c).Counts width ignoresSurplus where
  width_eq := h.width_eq
  refuse {fields aux} hAux hFields hRefuse := by
    show ∃ name, c.ofFieldsWithAux fields aux = .error (.elements name _ _)
    rw [ofFieldsWithAux_eq h.width_eq hAux]
    exact h.refuse hAux hFields hRefuse
  ignore {fields aux} hAux hFields hIgnore := by
    show c.ofFieldsWithAux fields aux = c.ofFieldsWithAux (fields.take width.fields) aux
    rw [ofFieldsWithAux_eq h.width_eq hAux, ofFieldsWithAux_eq h.width_eq hAux]
    exact h.ignore hAux hFields hIgnore

end Codec

theorem Leaf.counts (leaf : Leaf) : leaf.codec.Counts leaf.width false where
  width_eq := leaf.codec_width
  refuse {fields aux} hAux hFields _ := by
    have hSingle : ∀ {typeName : String}, fields.length ≠ 1 →
        Codec.single typeName fields = .error (.elements typeName 1 fields.length) := by
      intro typeName hLength
      unfold Codec.single
      split
      · exact absurd rfl hLength
      · rfl
    cases leaf with
    | field => exact ⟨_, congrArg (Except.map _) (hSingle hFields)⟩
    | boolean => exact ⟨_, congrArg (Except.map _) (hSingle hFields)⟩
    | uint32 => exact ⟨_, congrArg (Except.map _) (hSingle hFields)⟩
    | opaqueHost =>
        refine ⟨"Opaque", if_neg fun hEmpty => hFields ?_⟩
        rw [List.isEmpty_iff.1 hEmpty]
        rfl
  ignore _ _ h := nomatch h

/-- How the codec of a regular type answers to numbers of elements that are not its own. -/
theorem Descriptor.Regular.counts {r : Registry} {d : Descriptor} (h : d.Regular r)
    {width : Width} (hWidth : (r.codec d).width () = .ok width) :
    (r.codec d).Counts width d.ignoresSurplus := by
  induction d using Descriptor.ignoresSurplus.induct with
  | case1 name json =>
      cases h with
      | composite hNodup hMembers _ =>
          have hGrounded := Registry.Grounded.of_members fun m hm => (hMembers m hm).grounded
          rw [Registry.codec_composite hGrounded] at hWidth ⊢
          exact Codec.counts_composite hWidth
  | case2 name => exact Codec.counts_composite hWidth
  | case3 inner ih =>
      cases h with
      | plain hInner => exact (ih hInner hWidth).plain _
  | case4 type =>
      obtain rfl : type.width = width := Except.ok.inj (type.codec_width.symm.trans hWidth)
      exact type.counts
  | case5 element length => exact Codec.counts_ofPart hWidth _
  | case6 elements =>
      rw [Registry.codec, Descriptor.codec_tuple] at hWidth ⊢
      exact Codec.counts_ofPart hWidth _
  | case7 root => exact Codec.counts_ofPart hWidth _
  | case8 claims produces => cases h

end TypedCircuit
