import TypedCircuit.Proofs.Codec.Members
import TypedCircuit.Proofs.Equality

/-!
# Parts that take every share

The counts of a share are all that a part looks at when it rebuilds: a share of the right
counts always comes back as a value, whatever its auxiliary entries are. Entries that are no
host data are found out later, when the value is flattened, and the first of them decides the
error. `Part.Total` says both at once, in one equation for what the value flattens to.

Totality is put together as laws are: once for a walk over parts, from there for sequences
and keyed structures, and a codec that counts exactly is total when its part is.

## Main results

* `Part.total_sequence`, `Part.total_replicated`, `Part.Keyed.total` — structures of total
  parts are total.
* `Codec.total_part`, `Codec.total_ofPart`, `Codec.total_plain` — so are the codecs of total
  parts.
* `Leaf.total` — the built-in types are total.
-/

namespace TypedCircuit

/-! ## Host data among auxiliary entries -/

theorem Value.hostData_iff {v : Value} :
    v.HostData ↔ (∃ identity, v = .opaqueValue identity) ∨ v = .null := by
  unfold HostData Codec.expectOpaque
  constructor
  · intro h
    split at h
    · exact .inl ⟨_, rfl⟩
    · exact .inr rfl
    · cases h
  · rintro (⟨identity, rfl⟩ | rfl)
    · rfl
    · rfl

namespace Codec

theorem expectOpaque_eq_error {v : Value} (h : ¬ v.HostData) :
    expectOpaque v = .error (otherForm "Opaque" .opaqueValue v) := by
  unfold expectOpaque
  split
  · next identity => exact absurd rfl h
  · exact absurd rfl h
  · rfl

/-- Whether all values may stand for host data. The first that may not decides the error. -/
def expectAllOpaque (aux : List Value) : Except Error Unit := aux.forM expectOpaque

theorem expectAllOpaque_append (aux rest : List Value) :
    expectAllOpaque (aux ++ rest) = (expectAllOpaque aux >>= fun _ => expectAllOpaque rest) :=
  List.forM_append

theorem expectAllOpaque_eq_ok {aux : List Value} (h : ∀ a ∈ aux, a.HostData) :
    expectAllOpaque aux = .ok () := by
  induction aux with
  | nil => rfl
  | cons a rest ih =>
      have hHead : expectOpaque a = .ok () := h a List.mem_cons_self
      show (expectOpaque a >>= fun _ => expectAllOpaque rest) = _
      rw [hHead]
      exact ih fun b hb => h b (List.mem_cons_of_mem a hb)

theorem expectAllOpaque_eq_error {aux : List Value} (h : ¬ ∀ a ∈ aux, a.HostData) :
    ∃ a ∈ aux, ¬ a.HostData ∧
      expectAllOpaque aux = .error (otherForm "Opaque" .opaqueValue a) := by
  induction aux with
  | nil => exact absurd nofun h
  | cons a rest ih =>
      have hCons : expectAllOpaque (a :: rest) =
          (expectOpaque a >>= fun _ => expectAllOpaque rest) := rfl
      by_cases ha : a.HostData
      · have hRest : ¬ ∀ b ∈ rest, b.HostData := fun hRest =>
          h fun b hb => (List.mem_cons.1 hb).elim (fun hEq => hEq ▸ ha) (hRest b)
        obtain ⟨b, hb, hNot, hError⟩ := ih hRest
        refine ⟨b, List.mem_cons_of_mem a hb, hNot, ?_⟩
        rw [hCons, show expectOpaque a = .ok () from ha]
        exact hError
      · refine ⟨a, List.mem_cons_self, ha, ?_⟩
        rw [hCons, expectOpaque_eq_error ha]
        rfl

end Codec

/-! ## Total parts -/

/-- Every share of the right counts comes back as a value. The value carries the auxiliary
entries of the share, and flattens to its elements if the entries are host data. -/
structure Part.Total (p : Part) (width : Width) : Prop where
  width_eq : p.width () = .ok width
  rebuild_ok {fields : List Signal} {aux : List Value} (hFields : fields.length = width.fields)
    (hAux : aux.length = width.aux) :
    ∃ v, p.rebuild fields aux = .ok v ∧ p.auxiliary v = aux ∧
      p.flatten v = (Codec.expectAllOpaque aux).map fun _ => fields

namespace Part

variable {p : Part} {width : Width}

/-- A part that does what a total part does on shares of the right counts is total. -/
theorem Total.of_agree {q : Part} (h : p.Total width) (hWidth : q.width () = p.width ())
    (hFlatten : ∀ v fields, fields.length = width.fields → ∀ aux,
      p.flatten v = (Codec.expectAllOpaque aux).map (fun _ => fields) →
        q.flatten v = p.flatten v)
    (hAuxiliary : ∀ v, q.auxiliary v = p.auxiliary v)
    (hRebuild : ∀ fields aux, fields.length = width.fields → aux.length = width.aux →
      q.rebuild fields aux = p.rebuild fields aux) : q.Total width where
  width_eq := hWidth.trans h.width_eq
  rebuild_ok {fields aux} hFields hAux := by
    obtain ⟨v, hBack, hSame, hFlat⟩ := h.rebuild_ok hFields hAux
    refine ⟨v, ?_, ?_, ?_⟩
    · rw [hRebuild fields aux hFields hAux, hBack]
    · rw [hAuxiliary, hSame]
    · rw [hFlatten v fields hFields aux hFlat, hFlat]

/-! ## One part after the other -/

theorem flattenAll_cons_eq (p : Part) (parts : List Part) (v : Value) (items : List Value) :
    flattenAll (p :: parts) (v :: items) =
      (p.flatten v >>= fun front => flattenAll parts items >>= fun rest =>
        pure (front ++ rest)) := by
  unfold flattenAll
  rw [List.zip_cons_cons, List.mapM_cons]
  simp only [bind_assoc, pure_bind, List.flatten_cons]

section Parts

variable {parts : List Part} {ws : List Width}

theorem widths_eq_of_total (h : List.Forall₂ Part.Total parts ws) : widths parts = .ok ws := by
  rw [widths, mapM_eq_ok]
  exact h.imp fun p w hp => hp.width_eq

/-- Shares of the right counts come back one by one, and the first malformed entry among all
shares is the first one that any of the items is refused for. -/
theorem rebuildAll_total (h : List.Forall₂ Part.Total parts ws) {fields : List Signal}
    {aux : List Value} (hFields : fields.length = (Width.sum ws).fields)
    (hAux : aux.length = (Width.sum ws).aux) :
    ∃ items, rebuildAll parts (shares ws fields aux) = .ok items ∧
      items.length = parts.length ∧ auxiliaryAll parts items = aux ∧
        flattenAll parts items = (Codec.expectAllOpaque aux).map fun _ => fields := by
  induction h generalizing fields aux with
  | nil =>
      obtain rfl := List.length_eq_zero_iff.1 hFields
      obtain rfl := List.length_eq_zero_iff.1 hAux
      exact ⟨[], rfl, rfl, rfl, rfl⟩
  | @cons p w parts ws hHead _ ih =>
      rw [Width.sum_cons, Width.add_fields] at hFields
      rw [Width.sum_cons, Width.add_aux] at hAux
      have hFront : (fields.take w.fields).length = w.fields := by
        rw [List.length_take]; omega
      have hAuxFront : (aux.take w.aux).length = w.aux := by
        rw [List.length_take]; omega
      have hRest : (fields.drop w.fields).length = (Width.sum ws).fields := by
        rw [List.length_drop]; omega
      have hAuxRest : (aux.drop w.aux).length = (Width.sum ws).aux := by
        rw [List.length_drop]; omega
      obtain ⟨v, hBack, hSame, hFlat⟩ := hHead.rebuild_ok hFront hAuxFront
      obtain ⟨items, hBackAll, hLength, hSameAll, hFlatAll⟩ := ih hRest hAuxRest
      refine ⟨v :: items, ?_, congrArg Nat.succ hLength, ?_, ?_⟩
      · rw [shares_cons]
        exact rebuildAll_cons_ok hBack hBackAll
      · rw [auxiliaryAll_cons, hSame, hSameAll, List.take_append_drop]
      · have hSplit : Codec.expectAllOpaque aux =
            (Codec.expectAllOpaque (aux.take w.aux) >>= fun _ =>
              Codec.expectAllOpaque (aux.drop w.aux)) := by
          rw [← Codec.expectAllOpaque_append, List.take_append_drop]
        rw [flattenAll_cons_eq, hFlat, hFlatAll, hSplit]
        cases Codec.expectAllOpaque (aux.take w.aux) with
        | error e => rfl
        | ok _ =>
            cases Codec.expectAllOpaque (aux.drop w.aux) with
            | error e => rfl
            | ok _ =>
                show Except.ok (fields.take w.fields ++ fields.drop w.fields) = .ok fields
                rw [List.take_append_drop]

end Parts

/-! ## Sequences and keyed structures -/

/-- A sequence of total parts is total. -/
theorem total_sequence {parts : List Part} {ws : List Width}
    (h : List.Forall₂ Part.Total parts ws) (typeName : String) :
    (sequence typeName parts).Total (Width.sum ws) where
  width_eq := by
    show (widths parts).map Width.sum = _
    rw [widths_eq_of_total h]
    rfl
  rebuild_ok {fields aux} hFields hAux := by
    obtain ⟨items, hBack, hLength, hSame, hFlat⟩ := rebuildAll_total h hFields hAux
    refine ⟨.array items, ?_, hSame, ?_⟩
    · show (widths parts >>= fun ws =>
        rebuildAll parts (shares ws fields aux) >>= fun items => pure (Value.array items)) = _
      rw [widths_eq_of_total h]
      show (rebuildAll parts (shares ws fields aux) >>= fun items => pure (Value.array items)) = _
      rw [hBack]
      rfl
    · show (expectItems typeName parts.length (.array items) >>= flattenAll parts) = _
      rw [expectItems_eq_ok.2 ⟨rfl, hLength⟩]
      exact hFlat

/-- Copies of a total part are total. -/
theorem total_replicated (h : p.Total width) (typeName : String) (count : Nat) :
    (replicated typeName p count).Total (Width.times count width) := by
  have hAll : List.Forall₂ Part.Total (List.replicate count p) (List.replicate count width) :=
    forall₂_replicate h count
  refine ⟨?_, fun {fields aux} hFields hAux => ?_⟩
  · show (p.width ()).map (Width.times count) = _
    rw [h.width_eq]
    rfl
  · rw [← Width.sum_replicate] at hFields hAux
    obtain ⟨items, hBack, hLength, hSame, hFlat⟩ := rebuildAll_total hAll hFields hAux
    rw [List.length_replicate] at hLength
    subst hLength
    refine ⟨.array items, ?_, ?_, ?_⟩
    · rw [replicated_rebuild_eq, h.width_eq]
      show (rebuildAll _ (shares (List.replicate items.length width) fields aux) >>= _) = _
      rw [hBack]
      rfl
    · exact (auxiliaryAll_replicate p items).symm.trans hSame
    · rw [replicated_flatten]
      show (expectItems typeName _ (.array items) >>= flattenAll _) = _
      rw [expectItems_eq_ok.2 ⟨rfl, List.length_replicate.symm⟩]
      exact hFlat

/-- The elements of members are the elements of the items found. -/
theorem flattenMembers_eq {lookup : Lookup} {members : List (String × Part)}
    {items : List Value} (h : Finds lookup (members.map Prod.fst) items) :
    flattenMembers lookup members = flattenAll (members.map Prod.snd) items := by
  induction members generalizing items with
  | nil => cases h; rfl
  | cons m rest ih =>
      cases h with
      | @cons _ v _ items hv hItems =>
          rw [List.map_cons, flattenAll_cons_eq, ← ih hItems, flattenMembers_cons, hv]
          rfl

/-- A keyed structure of total members with distinct names is total. -/
theorem Keyed.total {members : List (String × Part)} {tag? : Option String}
    {lookup : Value → Lookup} (hp : p.Keyed members tag? lookup) {ws : List Width}
    (h : List.Forall₂ Part.Total (members.map Prod.snd) ws)
    (hNodup : (members.map Prod.fst).Nodup) : p.Total (Width.sum ws) := by
  have hWidths : memberWidths members = .ok ws := by
    rw [memberWidths_eq, widths_eq_of_total h]
  refine ⟨?_, fun {fields aux} hFields hAux => ?_⟩
  · rw [hp.width_eq, hWidths]
    rfl
  · obtain ⟨items, hBack, hLength, hSame, hFlat⟩ := rebuildAll_total h hFields hAux
    have hItems : (members.map Prod.fst).length = items.length := by
      rw [hLength, List.length_map, List.length_map]
    have hFinds := hp.finds_rebuilt hNodup hItems
    refine ⟨.record tag? (Entries.ofList ((members.map Prod.fst).zip items)), ?_, ?_, ?_⟩
    · rw [hp.rebuild_eq hWidths hFields hAux, rebuildMembers_eq hWidths, hBack]
      rfl
    · rw [(hp.visit hFinds).1, hSame]
    · rw [hp.flatten_eq, flattenMembers_eq hFinds, hFlat]

/-- A constant takes nothing and is total. -/
theorem total_constant (typeName : String) (json : Json) :
    (constant typeName json).Total Width.zero where
  width_eq := rfl
  rebuild_ok {fields aux} hFields hAux := by
    obtain rfl := List.length_eq_zero_iff.1 hFields
    obtain rfl := List.length_eq_zero_iff.1 hAux
    refine ⟨.primitive json, rfl, rfl, ?_⟩
    show (if json == json then Except.ok () else _).map _ = _
    rw [if_pos (beq_self_eq_true json)]
    rfl

end Part

/-! ## Codecs -/

namespace Codec

variable {c : Codec} {width : Width}

/-- Counting changes nothing for a total part: its counts are right. -/
theorem total_part (h : c.uncounted.Total width) : c.part.Total width := by
  have hWidth : c.width () = .ok width := h.width_eq
  refine h.of_agree rfl ?_ (fun _ => rfl) ?_
  · intro v fields hFields aux hFlat
    show c.toFields v = c.flatten v
    unfold toFields
    rw [show c.flatten v = _ from hFlat, hWidth]
    cases expectAllOpaque aux with
    | error e => rfl
    | ok _ =>
        show (if fields.length = width.fields then _ else _) = _
        rw [if_pos hFields]
        rfl
  · exact fun fields aux _ hAux => ofFieldsWithAux_eq hWidth hAux

/-- The type that takes exactly the counts of a total part is total. -/
theorem total_ofPart {p : Part} (h : p.Total width) (capabilities : Capabilities) :
    (ofPart p capabilities).part.Total width := by
  refine total_part (h.of_agree rfl (fun _ _ _ _ _ => rfl) (fun _ => rfl) ?_)
  exact fun fields aux hFields hAux => rebuildExactly_eq h.width_eq hFields hAux

/-- A type without the optional capabilities of a total one is total. -/
theorem total_plain (h : c.part.Total width) (typeName : String) :
    (plain typeName c).part.Total width :=
  total_part (h.of_agree rfl (fun _ _ _ _ _ => rfl) (fun _ => rfl) fun _ _ _ _ => rfl)

end Codec

/-- The built-in types are total. -/
theorem Leaf.total (leaf : Leaf) : leaf.codec.part.Total leaf.width := by
  refine Codec.total_part ⟨leaf.codec_width, fun {fields aux} hFields hAux => ?_⟩
  cases leaf with
  | field =>
      obtain ⟨s, rfl⟩ := List.length_eq_one_iff.1 hFields
      obtain rfl := List.length_eq_zero_iff.1 hAux
      exact ⟨.signal s, rfl, rfl, rfl⟩
  | boolean =>
      obtain ⟨s, rfl⟩ := List.length_eq_one_iff.1 hFields
      obtain rfl := List.length_eq_zero_iff.1 hAux
      exact ⟨.bit ⟨s⟩, rfl, rfl, rfl⟩
  | uint32 =>
      obtain ⟨s, rfl⟩ := List.length_eq_one_iff.1 hFields
      obtain rfl := List.length_eq_zero_iff.1 hAux
      exact ⟨.signal s, rfl, rfl, rfl⟩
  | opaqueHost =>
      obtain rfl := List.length_eq_zero_iff.1 hFields
      obtain ⟨v, rfl⟩ := List.length_eq_one_iff.1 hAux
      refine ⟨v, rfl, rfl, ?_⟩
      show (Codec.expectOpaque v).map _ = (Codec.expectOpaque v >>= fun _ => pure ()).map _
      cases Codec.expectOpaque v <;> rfl

end TypedCircuit
