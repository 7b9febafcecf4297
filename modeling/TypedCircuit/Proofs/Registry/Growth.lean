import TypedCircuit.Proofs.Codec.Fitting
import TypedCircuit.Proofs.Codec.Results
import TypedCircuit.Proofs.Passes.Alike
import TypedCircuit.Proofs.Registration
import TypedCircuit.Proofs.Registry.Widths
import TypedCircuit.Script.Expression

/-!
# Types from before a registry grew

A type that was built keeps what it found: the leaves of its shapes have the widths that their
types had then, while arrays, tuples and registered types ask for their widths whenever they are
used. After more members have been registered, old and new widths meet in one type. Such a type may
refuse what the same expression accepts when it is built again. It never reads or writes anything
else.

Members are only ever appended, so widths only ever grow. Wherever a type takes its share, it was
given at least the old width and needs the new one; if it is satisfied nevertheless, no width has
changed between the two, and the shares are the same all the way down. This argument needs that a
type that brings back a value was given as many elements as it is wide. The exception is a type of
the user that misdeclares its width, but that is a fixed width, which never grows.

What flattens is no matter of shares. Each leaf verifies its count against the width of today.

None of this asks how a program counts. On a machine on which the sizes of the old type fit, as they
are after the calls, the old type does what it does here. Before the calls its sizes were no
greater, so they fitted when it was built.

## Main results

* `Registry.Grows.ofType` — no width gets smaller when a registry grows.
* `Script.TypeExpr.build_renews` — an expression can be built again, and what its old type does its
  new one does as well.
* `Registry.built_earlier` — the same after any calls, for every value and every share.
-/

namespace TypedCircuit

/-! ## Widths in order -/

namespace Width

instance : LE Width := ⟨fun a b => a.fields ≤ b.fields ∧ a.aux ≤ b.aux⟩

variable {a b c d : Width}

protected theorem le_refl (a : Width) : a ≤ a := ⟨Nat.le_refl _, Nat.le_refl _⟩

protected theorem le_trans (h : a ≤ b) (h' : b ≤ c) : a ≤ c :=
  ⟨Nat.le_trans h.1 h'.1, Nat.le_trans h.2 h'.2⟩

protected theorem le_antisymm (h : a ≤ b) (h' : b ≤ a) : a = b :=
  ext (Nat.le_antisymm h.1 h'.1) (Nat.le_antisymm h.2 h'.2)

protected theorem add_le_add (h : a ≤ b) (h' : c ≤ d) : a + c ≤ b + d :=
  ⟨Nat.add_le_add h.1 h'.1, Nat.add_le_add h.2 h'.2⟩

protected theorem le_add_right (a b : Width) : a ≤ a + b :=
  ⟨Nat.le_add_right _ _, Nat.le_add_right _ _⟩

theorem times_le_times (h : a ≤ b) (count : Nat) : times count a ≤ times count b :=
  ⟨Nat.mul_le_mul_left count h.1, Nat.mul_le_mul_left count h.2⟩

end Width

mutual

/-- The width of a type does not get smaller if no width of a name does. -/
theorem Descriptor.width_grows {f g : String → Except Error Width}
    (h : ∀ {name width}, g name = .ok width → ∃ before, f name = .ok before ∧ before ≤ width) :
    ∀ (d : Descriptor) {width : Width}, d.width g = .ok width →
      ∃ before, d.width f = .ok before ∧ before ≤ width
  | .leaf _, width, hWidth => ⟨width, hWidth, Width.le_refl _⟩
  | .array element length, _, hWidth => by
      obtain ⟨w, hw, rfl⟩ := map_eq_ok.1 hWidth
      obtain ⟨before, hBefore, hLe⟩ := Descriptor.width_grows h element hw
      exact ⟨_, map_eq_ok.2 ⟨before, hBefore, rfl⟩, Width.times_le_times hLe length⟩
  | .tuple elements, _, hWidth =>
      Descriptor.totalWidth_grows h elements (Width.le_refl _) hWidth
  | .structural _, width, hWidth => ⟨width, hWidth, Width.le_refl _⟩
  | .composite _ _, _, hWidth => h hWidth
  | .unregistered _, width, hWidth => ⟨width, hWidth, Width.le_refl _⟩
  | .plain inner, _, hWidth => Descriptor.width_grows h inner hWidth
  | .misdeclared _ _, width, hWidth => ⟨width, hWidth, Width.le_refl _⟩

theorem Descriptor.totalWidth_grows {f g : String → Except Error Width}
    (h : ∀ {name width}, g name = .ok width → ∃ before, f name = .ok before ∧ before ≤ width) :
    ∀ (ds : List Descriptor) {start total width : Width}, start ≤ total →
      Descriptor.totalWidth g total ds = .ok width →
        ∃ before, Descriptor.totalWidth f start ds = .ok before ∧ before ≤ width
  | [], start, _, _, hLe, hWidth => by
      cases hWidth
      exact ⟨start, rfl, hLe⟩
  | d :: rest, _, _, _, hLe, hWidth => by
      rw [Descriptor.totalWidth] at hWidth
      cases hHead : d.width g with
      | error e =>
          rw [hHead] at hWidth
          cases hWidth
      | ok w =>
          rw [hHead] at hWidth
          obtain ⟨before, hBefore, hHeadLe⟩ := Descriptor.width_grows h d hHead
          rw [Descriptor.totalWidth, hBefore]
          exact Descriptor.totalWidth_grows h rest (Width.add_le_add hLe hHeadLe) hWidth

end

/-- The first ones of some types are as wide or less wide. -/
theorem Descriptor.totalWidth_prefix {f : String → Except Error Width} {ds es : List Descriptor}
    {total width : Width} (h : Descriptor.totalWidth f total (ds ++ es) = .ok width) :
    ∃ before, Descriptor.totalWidth f total ds = .ok before ∧ before ≤ width := by
  induction ds generalizing total with
  | nil =>
      refine ⟨total, rfl, ?_⟩
      rw [List.nil_append, Descriptor.totalWidth_eq] at h
      obtain ⟨widths, -, rfl⟩ := map_eq_ok.1 h
      rw [Width.foldl_eq]
      exact Width.le_add_right _ _
  | cons d rest ih =>
      rw [List.cons_append, Descriptor.totalWidth] at h
      rw [Descriptor.totalWidth]
      cases hHead : d.width f with
      | error e =>
          rw [hHead] at h
          cases h
      | ok w =>
          rw [hHead] at h
          exact ih h

namespace Registry

/-- Members have been appended to types, and nothing else has changed. -/
def Grows (r r' : Registry) : Prop := ∀ name, r.schema name <+: r'.schema name

theorem grows_steps (held : Holding) (later : List Call) :
    held.registry.Grows (later.foldl Holding.step held).registry := (prefix_steps held later).1

namespace Grows

variable {r r' : Registry} (h : r.Grows r') {name : String} {width : Width}
include h

theorem widthWithin {k : Nat} (hWidth : r'.widthWithin k name = .ok width) :
    ∃ before, r.widthWithin k name = .ok before ∧ before ≤ width := by
  induction k generalizing name width with
  | zero => cases hWidth
  | succ k ih =>
      obtain ⟨added, hSchema⟩ := h name
      rw [Registry.widthWithin, ← hSchema, List.map_append] at hWidth
      obtain ⟨shorter, hShorter, hLe⟩ := Descriptor.totalWidth_prefix hWidth
      obtain ⟨before, hBefore, hLe'⟩ :=
        Descriptor.totalWidth_grows ih _ (Width.le_refl _) hShorter
      exact ⟨before, hBefore, Width.le_trans hLe' hLe⟩

theorem widthOf (hWidth : r'.widthOf name = .ok width) :
    ∃ before, r.widthOf name = .ok before ∧ before ≤ width := by
  obtain ⟨before, hBefore, hLe⟩ := h.widthWithin hWidth
  exact ⟨before, widthOf_of_within hBefore, hLe⟩

/-- No width gets smaller when a registry grows. -/
theorem ofType {d : Descriptor} (hWidth : r'.width d = .ok width) :
    ∃ before, r.width d = .ok before ∧ before ≤ width := d.width_grows h.widthOf hWidth

end Grows

end Registry

/-! ## Parts -/

namespace Part

/-- What one part does with its share or with a value, the other part does as well, and then their
widths are the same or the counts are those of the other part. -/
structure Renews (p q : Part) : Prop where
  widths : ∃ w w', p.width () = .ok w ∧ q.width () = .ok w' ∧ w ≤ w'
  flatten {v : Value} {fields : List Signal} (h : p.flatten v = .ok fields) :
    q.flatten v = .ok fields ∧ ∃ w', q.width () = .ok w' ∧ fields.length = w'.fields
  rebuild {w : Width} (hWidth : p.width () = .ok w) {fields : List Signal} {aux : List Value}
    (hFields : fields.length = w.fields) (hAux : aux.length = w.aux) {v : Value}
    (h : p.rebuild fields aux = .ok v) : q.width () = .ok w ∧ q.rebuild fields aux = .ok v

variable {p q : Part} {parts parts' : List Part} {members members' : List (String × Part)}

/-! ### One part after the other -/

section Parts

variable (h : List.Forall₂ Renews parts parts')
include h

theorem widths_renew :
    ∃ ws ws', widths parts = .ok ws ∧ widths parts' = .ok ws' ∧ Width.sum ws ≤ Width.sum ws' := by
  induction h with
  | nil => exact ⟨[], [], rfl, rfl, Width.le_refl _⟩
  | cons hHead _ ih =>
      obtain ⟨w, w', hw, hw', hLe⟩ := hHead.widths
      obtain ⟨ws, ws', hws, hws', hLes⟩ := ih
      refine ⟨w :: ws, w' :: ws', mapM_eq_ok.2 (.cons hw (mapM_eq_ok.1 hws)),
        mapM_eq_ok.2 (.cons hw' (mapM_eq_ok.1 hws')), ?_⟩
      rw [Width.sum_cons, Width.sum_cons]
      exact Width.add_le_add hLe hLes

theorem flattenAll_renews {items : List Value} (hItems : items.length = parts.length)
    {fields : List Signal} (hFlat : flattenAll parts items = .ok fields) :
    flattenAll parts' items = .ok fields ∧
      ∃ ws', widths parts' = .ok ws' ∧ fields.length = (Width.sum ws').fields := by
  induction h generalizing items fields with
  | nil =>
      cases hFlat
      exact ⟨rfl, [], rfl, rfl⟩
  | cons hHead _ ih =>
      cases items with
      | nil => cases hItems
      | cons v items =>
          obtain ⟨front, rest, hFront, hRest, rfl⟩ := flattenAll_cons.1 hFlat
          obtain ⟨hFront', w', hw', hLength⟩ := hHead.flatten hFront
          obtain ⟨hRest', ws', hws', hLengths⟩ := ih (Nat.succ.inj hItems) hRest
          refine ⟨flattenAll_cons.2 ⟨front, rest, hFront', hRest', rfl⟩, w' :: ws',
            mapM_eq_ok.2 (.cons hw' (mapM_eq_ok.1 hws')), ?_⟩
          rw [List.length_append, Width.sum_cons, Width.add_fields, hLength, hLengths]

theorem rebuildAll_renews {ws : List Width} (hWidths : widths parts = .ok ws)
    {fields : List Signal} {aux : List Value} (hFields : fields.length = (Width.sum ws).fields)
    (hAux : aux.length = (Width.sum ws).aux) {items : List Value}
    (hBack : rebuildAll parts (shares ws fields aux) = .ok items) :
    widths parts' = .ok ws ∧ rebuildAll parts' (shares ws fields aux) = .ok items := by
  have hAll := mapM_eq_ok.1 hWidths
  clear hWidths
  induction h generalizing ws fields aux items with
  | nil =>
      cases hAll
      exact ⟨rfl, hBack⟩
  | cons hHead _ ih =>
      cases hAll with
      | @cons _ w _ ws hw hRest =>
          rw [Width.sum_cons, Width.add_fields] at hFields
          rw [Width.sum_cons, Width.add_aux] at hAux
          rw [shares_cons, rebuildAll_cons] at hBack
          obtain ⟨v, hv, hBack⟩ := bind_eq_ok.1 hBack
          obtain ⟨rest, hRestBack, hBack⟩ := bind_eq_ok.1 hBack
          cases hBack
          obtain ⟨hw', hv'⟩ := hHead.rebuild hw (List.length_take_of_le (by omega))
            (List.length_take_of_le (by omega)) hv
          obtain ⟨hws', hRest'⟩ := ih (by rw [List.length_drop]; omega)
            (by rw [List.length_drop]; omega) hRestBack hRest
          refine ⟨mapM_eq_ok.2 (.cons hw' (mapM_eq_ok.1 hws')), ?_⟩
          rw [shares_cons]
          exact rebuildAll_cons_ok hv' hRest'

end Parts

/-! ### Larger parts -/

theorem renews_sequence (h : List.Forall₂ Renews parts parts') (typeName typeName' : String) :
    Renews (sequence typeName parts) (sequence typeName' parts') where
  widths := by
    obtain ⟨ws, ws', hws, hws', hLe⟩ := widths_renew h
    exact ⟨_, _, map_eq_ok.2 ⟨ws, hws, rfl⟩, map_eq_ok.2 ⟨ws', hws', rfl⟩, hLe⟩
  flatten {v fields} hFlat := by
    obtain ⟨items, hItems, hAll⟩ := bind_eq_ok.1 hFlat
    obtain ⟨rfl, hLength⟩ := expectItems_eq_ok.1 hItems
    obtain ⟨hAll', ws', hws', hCount⟩ := flattenAll_renews h hLength hAll
    refine ⟨bind_eq_ok.2 ⟨items, ?_, hAll'⟩, _, map_eq_ok.2 ⟨ws', hws', rfl⟩, hCount⟩
    exact expectItems_eq_ok.2 ⟨rfl, hLength.trans h.length_eq⟩
  rebuild {w} hWidth {fields aux} hFields hAux {v} hBack := by
    obtain ⟨ws, hws, rfl⟩ := map_eq_ok.1 hWidth
    obtain ⟨_, hOwn, hBack⟩ := bind_eq_ok.1 hBack
    cases hws.symm.trans hOwn
    obtain ⟨items, hAll, hBack⟩ := bind_eq_ok.1 hBack
    obtain ⟨hws', hAll'⟩ := rebuildAll_renews h hws hFields hAux hAll
    exact ⟨map_eq_ok.2 ⟨ws, hws', rfl⟩, bind_eq_ok.2 ⟨ws, hws', bind_eq_ok.2 ⟨items, hAll', hBack⟩⟩⟩

theorem renews_replicated (h : Renews p q) (typeName typeName' : String) (count : Nat) :
    Renews (replicated typeName p count) (replicated typeName' q count) := by
  obtain ⟨w, w', hw, hw', -⟩ := h.widths
  have hCopies := renews_sequence (forall₂_replicate h count) typeName typeName'
  refine ⟨?_, fun {v fields} hFlat => ?_, fun {u} hWidth {fields aux} hFields hAux {v} hBack => ?_⟩
  · rw [replicated_width hw, replicated_width hw']
    exact hCopies.widths
  · rw [replicated_flatten] at hFlat
    rw [replicated_flatten, replicated_width hw']
    exact hCopies.flatten hFlat
  · rw [replicated_width hw] at hWidth
    rw [replicated_rebuild hw] at hBack
    rw [replicated_rebuild hw', replicated_width hw']
    exact hCopies.rebuild hWidth hFields hAux hBack

theorem renews_object
    (h : List.Forall₂ (fun m m' => m.1 = m'.1 ∧ Renews m.2 m'.2) members members')
    (typeName typeName' : String) :
    Renews (object typeName members) (object typeName' members') := by
  have hKeys := keys_eq_of_forall₂ h
  have hParts := forall₂_of_entries h
  have hWidth : ∀ {typeName members w}, (object typeName members).width () = .ok w ↔
      ∃ ws, widths (members.map Prod.snd) = .ok ws ∧ Width.sum ws = w := fun {_ members _} => by
    rw [← memberWidths_eq]
    exact map_eq_ok
  refine ⟨?_, fun {v fields} hFlat => ?_, fun {w} hOwn {fields aux} hFields hAux {v} hBack => ?_⟩
  · obtain ⟨ws, ws', hws, hws', hLe⟩ := widths_renew hParts
    exact ⟨_, _, hWidth.2 ⟨ws, hws, rfl⟩, hWidth.2 ⟨ws', hws', rfl⟩, hLe⟩
  · obtain ⟨items, hFinds, hAll⟩ := flattenMembers_eq_ok.1 hFlat
    have hLength : items.length = (members.map Prod.snd).length := by
      rw [hFinds.length_eq, List.length_map, List.length_map]
    obtain ⟨hAll', ws', hws', hCount⟩ := flattenAll_renews hParts hLength hAll
    refine ⟨flattenMembers_eq_ok.2 ⟨items, ?_, hAll'⟩, _, hWidth.2 ⟨ws', hws', rfl⟩, hCount⟩
    rw [← hKeys]
    exact hFinds.imp fun _ _ hFind => lookupKey_eq_ok.2 (lookupKey_eq_ok.1 hFind)
  · obtain ⟨ws, hws, rfl⟩ := hWidth.1 hOwn
    obtain ⟨record, hRecord, rfl⟩ := map_eq_ok.1 hBack
    rw [rebuildMembers_eq ((memberWidths_eq members).trans hws)] at hRecord
    obtain ⟨items, hAll, rfl⟩ := map_eq_ok.1 hRecord
    obtain ⟨hws', hAll'⟩ := rebuildAll_renews hParts hws hFields hAux hAll
    refine ⟨hWidth.2 ⟨ws, hws', rfl⟩, map_eq_ok.2 ⟨_, ?_, rfl⟩⟩
    rw [rebuildMembers_eq ((memberWidths_eq members').trans hws'), ← hKeys]
    exact map_eq_ok.2 ⟨items, hAll', rfl⟩

theorem renews_constant (typeName typeName' : String) (json : Json) :
    Renews (constant typeName json) (constant typeName' json) where
  widths := ⟨_, _, rfl, rfl, Width.le_refl _⟩
  flatten {v fields} hFlat := by
    obtain ⟨_, hSame, rfl⟩ := map_eq_ok.1 hFlat
    refine ⟨map_eq_ok.2 ⟨(), ?_, rfl⟩, Width.zero, rfl, rfl⟩
    unfold expectConstant at hSame ⊢
    split at hSame
    · next json' =>
        split at hSame
        · next hEq => exact if_pos hEq
        · cases hSame
    · cases hSame
  rebuild hWidth _ _ _ _ _ hBack := ⟨hWidth, hBack⟩

end Part

/-! ## Codecs -/

namespace Codec

/-- What one type does the other type does as well. The first one is at least as wide as something,
and as long as the other one is wider, it counts the elements that it is given. -/
structure Renews (start : Width) (c c' : Codec) : Prop where
  widths : ∃ w w', c.width () = .ok w ∧ c'.width () = .ok w' ∧ start ≤ w ∧ w ≤ w'
  toFields {v : Value} {fields : List Signal} (h : c.toFields v = .ok fields) :
    c'.toFields v = .ok fields
  ofFieldsWithAux {fields : List Signal} {aux : List Value} {v : Value}
    (h : c.ofFieldsWithAux fields aux = .ok v) : c'.ofFieldsWithAux fields aux = .ok v
  counts : c'.width () = .ok start ∨ ∀ {w' fields aux v}, c'.width () = .ok w' →
    c'.ofFieldsWithAux fields aux = .ok v → w'.fields ≤ fields.length

theorem ofPart_counts {p : Part} {capabilities : Capabilities} {w : Width} {fields : List Signal}
    {aux : List Value} {v : Value} (hWidth : p.width () = .ok w)
    (h : (ofPart p capabilities).ofFieldsWithAux fields aux = .ok v) :
    fields.length = w.fields := by
  obtain ⟨_, -, -, hBack⟩ := ofFieldsWithAux_eq_ok.1 h
  obtain ⟨_, hOwn, hFields, -⟩ := rebuildExactly_eq_ok.1 hBack
  cases hOwn.symm.trans hWidth
  exact hFields

/-- A type without optional capabilities brings back what its inner type does. -/
theorem plain_ofFieldsWithAux {typeName : String} {c : Codec} {fields : List Signal}
    {aux : List Value} {v : Value} :
    (plain typeName c).ofFieldsWithAux fields aux = .ok v ↔
      c.ofFieldsWithAux fields aux = .ok v := by
  refine ofFieldsWithAux_eq_ok.trans ⟨fun ⟨_, _, _, h⟩ => h, fun h => ?_⟩
  obtain ⟨w, hw, hAux, -⟩ := ofFieldsWithAux_eq_ok.1 h
  exact ⟨w, hw, hAux, h⟩

namespace Renews

variable {start : Width} {c c' : Codec}

/-- Whoever is satisfied with a share is as wide as the share. -/
theorem width_eq (h : Renews start c c') {u : Width} (hStart : start ≤ u)
    (hLe : ∀ {w'}, c'.width () = .ok w' → u ≤ w') {fields : List Signal} {aux : List Value}
    (hFields : fields.length = u.fields) (hAux : aux.length = u.aux) {v : Value}
    (hBack : c'.ofFieldsWithAux fields aux = .ok v) : c'.width () = .ok u := by
  obtain ⟨w', hw', hAux', -⟩ := ofFieldsWithAux_eq_ok.1 hBack
  rcases h.counts with hFixed | hCounts
  · rw [hFixed, Width.le_antisymm hStart (hLe hFixed)]
  · have hCount := hCounts hw' hBack
    rw [hw', Width.le_antisymm ⟨?_, ?_⟩ (hLe hw')]
    · omega
    · omega

theorem part (h : Renews start c c') : c.part.Renews c'.part := by
  obtain ⟨w, w', hw, hw', hStart, hLe⟩ := h.widths
  refine ⟨⟨w, w', hw, hw', hLe⟩, fun {v fields} hFlat => ?_,
    fun {u} hu {fields aux} hFields hAux {v} hBack => ?_⟩
  · have hFlat' := h.toFields hFlat
    exact ⟨hFlat', length_of_toFields hFlat'⟩
  · have hBack' := h.ofFieldsWithAux hBack
    cases hw.symm.trans hu
    refine ⟨h.width_eq hStart (fun hOther => ?_) hFields hAux hBack', hBack'⟩
    cases hw'.symm.trans hOther
    exact hLe

/-- A leaf of a shape keeps the width its type had. -/
theorem leaf (h : Renews start c c') {w' : Width} (hw' : c'.width () = .ok w') :
    Part.Renews { c.part with width := fun _ => .ok start }
      { c'.part with width := fun _ => .ok w' } := by
  obtain ⟨w, w'', -, hw'', hStart, hLe⟩ := h.widths
  cases hw''.symm.trans hw'
  have hLe' := Width.le_trans hStart hLe
  refine ⟨⟨start, w', rfl, rfl, hLe'⟩, fun {v fields} hFlat => ?_,
    fun {u} hu {fields aux} hFields hAux {v} hBack => ?_⟩
  · have hFlat' := h.toFields hFlat
    obtain ⟨w'', hw'', hLength⟩ := length_of_toFields hFlat'
    cases hw''.symm.trans hw'
    exact ⟨hFlat', w', rfl, hLength⟩
  · cases hu
    have hBack' := h.ofFieldsWithAux hBack
    have hSame := h.width_eq (Width.le_refl _) (fun hOther => ?_) hFields hAux hBack'
    · exact ⟨hw'.symm.trans hSame, hBack'⟩
    · cases hw'.symm.trans hOther
      exact hLe'

theorem ofPart {p q : Part} (h : p.Renews q) (hStart : ∀ {w}, p.width () = .ok w → start ≤ w)
    (capabilities capabilities' : Capabilities) :
    Renews start (Codec.ofPart p capabilities) (Codec.ofPart q capabilities') where
  widths := by
    obtain ⟨w, w', hw, hw', hLe⟩ := h.widths
    exact ⟨w, w', hw, hw', hStart hw, hLe⟩
  toFields {v fields} hFlat := by
    obtain ⟨_, -, -, hPart⟩ := toFields_ok_iff.1 hFlat
    obtain ⟨hPart', w', hw', hLength⟩ := h.flatten hPart
    exact toFields_ok_iff.2 ⟨w', hw', hLength, hPart'⟩
  ofFieldsWithAux {fields aux v} hBack := by
    obtain ⟨w, -, -, hBack⟩ := ofFieldsWithAux_eq_ok.1 hBack
    obtain ⟨w, hw, hFields, hAux, hPart⟩ := rebuildExactly_eq_ok.1 hBack
    obtain ⟨hw', hPart'⟩ := h.rebuild hw hFields hAux hPart
    exact ofFieldsWithAux_eq_ok.2
      ⟨w, hw', hAux, rebuildExactly_eq_ok.2 ⟨w, hw', hFields, hAux, hPart'⟩⟩
  counts := .inr fun hw' hBack => Nat.le_of_eq (ofPart_counts hw' hBack).symm

theorem plain (h : Renews start c c') (typeName typeName' : String) :
    Renews start (Codec.plain typeName c) (Codec.plain typeName' c') := by
  refine ⟨h.widths, fun {v fields} hFlat => ?_,
    fun hBack => plain_ofFieldsWithAux.2 (h.ofFieldsWithAux (plain_ofFieldsWithAux.1 hBack)), ?_⟩
  · obtain ⟨_, -, -, hInner⟩ := toFields_ok_iff.1 hFlat
    have hInner' := h.toFields hInner
    obtain ⟨w', hw', hLength⟩ := length_of_toFields hInner'
    exact toFields_ok_iff.2 ⟨w', hw', hLength, hInner'⟩
  · exact h.counts.imp_right fun hCounts _ _ _ _ hw' hBack =>
      hCounts hw' (plain_ofFieldsWithAux.1 hBack)

end Renews

end Codec

/-! ## Types -/

namespace Registry

variable {r r' : Registry}

/-- A registered type counts the elements that it is given. -/
theorem composite_counts {name : String} {json : Bool} {width : Width} {fields : List Signal}
    {aux : List Value} {v : Value} (hWidth : r.widthOf name = .ok width)
    (h : (r.codec (.composite name json)).ofFieldsWithAux fields aux = .ok v) :
    width.fields ≤ fields.length := by
  obtain ⟨_, -, -, hBack⟩ := Codec.ofFieldsWithAux_eq_ok.1 h
  obtain ⟨c, hBuild, hBack⟩ := bind_eq_ok.1 hBack
  obtain ⟨members, hMembers, rfl⟩ := map_eq_ok.1 hBuild
  have hTotal : (Part.memberWidths (Codec.memberParts members)).map Width.sum = .ok width := by
    change r.membersWithin (r.steps _) name = _ at hMembers
    cases hSteps : r.steps (fields.length + aux.length) with
    | zero =>
        rw [hSteps] at hMembers
        cases hMembers
    | succ steps =>
        rw [hSteps] at hMembers
        cases hMembers
        exact memberWidths_unroll hWidth rfl
  obtain ⟨ws, hws, rfl⟩ := map_eq_ok.1 hTotal
  obtain ⟨_, hOwn, hBack⟩ := bind_eq_ok.1 hBack
  cases hws.symm.trans hOwn
  exact Nat.le_of_not_lt fun hShort => by
    rw [if_pos hShort] at hBack
    cases hBack

end Registry

private theorem Descriptor.width_le_of_ofPart {r : Registry} {d : Descriptor} {p : Part}
    {capabilities : Capabilities} (hCodec : r.codec d = Codec.ofPart p capabilities)
    {width : Width} {fields : List Signal} {aux : List Value} {v : Value}
    (hWidth : r.width d = .ok width) (h : (r.codec d).ofFieldsWithAux fields aux = .ok v) :
    width.fields ≤ fields.length := by
  have hOwn : (r.codec d).width () = .ok width := (Descriptor.codec_width r.names d).trans hWidth
  rw [hCodec] at hOwn h
  exact Nat.le_of_eq (Codec.ofPart_counts hOwn h).symm

/-- A type counts the elements that it is given, or has the same width under all meanings of
names. -/
theorem Descriptor.counts (r : Registry) (d : Descriptor) :
    (∃ width, ∀ f : String → Except Error Width, d.width f = .ok width) ∨
      ∀ {width fields aux v}, r.width d = .ok width →
        (r.codec d).ofFieldsWithAux fields aux = .ok v → width.fields ≤ fields.length := by
  cases d with
  | leaf type => exact .inl ⟨type.width, fun _ => rfl⟩
  | array | tuple | structural => exact .inr (Descriptor.width_le_of_ofPart rfl)
  | composite => exact .inr Registry.composite_counts
  | unregistered => exact .inl ⟨Width.zero, fun _ => rfl⟩
  | plain inner =>
      refine (Descriptor.counts r inner).imp_right fun hCounts _ _ _ _ hWidth hBack => ?_
      exact hCounts hWidth (Codec.plain_ofFieldsWithAux.1 hBack)
  | misdeclared claims => exact .inl ⟨⟨claims, 0⟩, fun _ => rfl⟩

/-- What an old type does a new type does as well. -/
def Descriptor.Renews (r r' : Registry) (d d' : Descriptor) : Prop :=
  ∃ start, r.width d = .ok start ∧ (r'.codec d).Renews start (r'.codec d')

/-- Shapes under the same keys do the same. -/
abbrev Shape.MembersRenew (r' : Registry) : Entries Shape → Entries Shape → Prop :=
  EntriesRelated fun s s' => (s.part r'.names).Renews (s'.part r'.names)

/-- A shape does what another one does, and an object stays an object with the same keys. -/
structure Shape.Renews (r' : Registry) (s s' : Shape) : Prop where
  part : (s.part r'.names).Renews (s'.part r'.names)
  object {members : Entries Shape} (h : s = .object members) :
    ∃ members' : Entries Shape, s' = .object members' ∧ Shape.MembersRenew r' members members'

section

variable {r r' : Registry} {d d' : Descriptor}

/-- A type that is not built again only ever does the same. -/
theorem Descriptor.renews_self (hGrows : r.Grows r')
    (hSized : ∀ name ∈ d.mentions, r'.Sized name) : d.Renews r r' d := by
  obtain ⟨width, hWidth⟩ := d.exists_width_iff.2 fun name hName =>
    hSized name (Descriptor.outerMentions_subset d hName)
  obtain ⟨start, hStart, hLe⟩ := hGrows.ofType hWidth
  have hOwn : (r'.codec d).width () = .ok width := (Descriptor.codec_width r'.names d).trans hWidth
  refine ⟨start, hStart, ⟨width, width, hOwn, hOwn, hLe, Width.le_refl _⟩, id, id, ?_⟩
  rcases Descriptor.counts r' d with ⟨fixed, hFixed⟩ | hCounts
  · cases (hFixed r.widthOf).symm.trans hStart
    exact .inl ((Descriptor.codec_width r'.names d).trans (hFixed r'.widthOf))
  · exact .inr fun {w' _ _ _} hw' hBack =>
      hCounts ((Descriptor.codec_width r'.names d).symm.trans hw') hBack

/-- What a registered type reads does not depend on whether it had documents. -/
private theorem composite_same (r : Registry) (name : String) (json json' : Bool) :
    (r.codec (.composite name json)).toFields = (r.codec (.composite name json')).toFields ∧
      (r.codec (.composite name json)).ofFieldsWithAux =
        (r.codec (.composite name json')).ofFieldsWithAux := by
  have hBuild : ∀ {α : Type} (use : Codec → Except Error α) (size : Nat),
      (∀ members,
        use (Codec.composite name json members) = use (Codec.composite name json' members)) →
      ((r.names.members size name).map (Codec.composite name json) >>= use) =
        ((r.names.members size name).map (Codec.composite name json') >>= use) := by
    intro α use size hUse
    cases hMembers : r.names.members size name with
    | error e => rfl
    | ok members => exact hUse members
  constructor
  · funext v
    exact congrArg (· >>= fun fields : List Signal => r.widthOf name >>= fun width : Width =>
      if fields.length = width.fields then pure fields
      else throw (.elements name width.fields fields.length))
      (hBuild (·.flatten v) v.height fun _ => rfl)
  · funext fields aux
    exact congrArg (fun back : Except Error Value => r.widthOf name >>= fun width : Width =>
      if aux.length = width.aux then back else throw (.auxiliary name width.aux aux.length))
      (hBuild (·.rebuild fields aux) _ fun _ => rfl)

theorem Descriptor.renews_composite (hGrows : r.Grows r') {name : String} (h : r'.Sized name)
    (json json' : Bool) : (Descriptor.composite name json).Renews r r' (.composite name json') := by
  obtain ⟨start, hStart, hSelf⟩ := Descriptor.renews_self (d := .composite name json) hGrows
    (List.forall_mem_singleton.2 h)
  obtain ⟨hFlatten, hBack⟩ := composite_same r' name json json'
  refine ⟨start, hStart, hSelf.widths, fun hFlat => hFlatten ▸ hFlat, fun hOk => hBack ▸ hOk, ?_⟩
  exact .inr fun hWidth hOk => Registry.composite_counts hWidth hOk

theorem Descriptor.Renews.part (h : d.Renews r r' d') :
    (r'.codec d).part.Renews (r'.codec d').part := by
  obtain ⟨start, -, hCodec⟩ := h
  exact hCodec.part

/-- Types that take exactly the counts of a part do what their parts do. -/
theorem Descriptor.Renews.ofPart (hGrows : r.Grows r') {p q : Part}
    {capabilities capabilities' : Capabilities} (h : p.Renews q)
    (hCodec : r'.codec d = Codec.ofPart p capabilities)
    (hCodec' : r'.codec d' = Codec.ofPart q capabilities') : d.Renews r r' d' := by
  obtain ⟨w, w', hw, -, -⟩ := h.widths
  have hWidth : r'.width d = .ok w := by
    rw [← Registry.codec_part_width, hCodec]
    exact hw
  obtain ⟨start, hStart, hLe⟩ := hGrows.ofType hWidth
  refine ⟨start, hStart, ?_⟩
  rw [hCodec, hCodec']
  refine .ofPart h (fun hOwn => ?_) _ _
  cases hw.symm.trans hOwn
  exact hLe

theorem Descriptor.Renews.array (hGrows : r.Grows r') (h : d.Renews r r' d') (length : Nat) :
    (Descriptor.array d length).Renews r r' (.array d' length) :=
  .ofPart hGrows (Part.renews_replicated h.part _ _ length) rfl rfl

theorem Descriptor.Renews.tuple (hGrows : r.Grows r') {ds ds' : List Descriptor}
    (h : List.Forall₂ (Descriptor.Renews r r') ds ds') :
    (Descriptor.tuple ds).Renews r r' (.tuple ds') := by
  have hParts : List.Forall₂ Part.Renews ((ds.map (·.codec r'.names)).map Codec.part)
      ((ds'.map (·.codec r'.names)).map Codec.part) := by
    rw [List.map_map, List.map_map, List.forall₂_map_left_iff, List.forall₂_map_right_iff]
    exact h.imp fun _ _ hHead => hHead.part
  exact .ofPart hGrows (Part.renews_sequence hParts _ _) (Descriptor.codec_tuple _ ds)
    (Descriptor.codec_tuple _ ds')

theorem Descriptor.Renews.plain (h : d.Renews r r' d') :
    (Descriptor.plain d).Renews r r' (.plain d') := by
  obtain ⟨start, hStart, hCodec⟩ := h
  exact ⟨start, hStart, hCodec.plain _ _⟩

/-! ## Shapes -/

theorem Shape.Renews.leaf (h : d.Renews r r' d') {width : Width} (hWidth : r.width d = .ok width) :
    ∃ width', r'.width d' = .ok width' ∧ Shape.Renews r' (.leaf d width) (.leaf d' width') := by
  obtain ⟨start, hStart, hCodec⟩ := h
  cases hStart.symm.trans hWidth
  obtain ⟨_, width', -, hWidth', -⟩ := hCodec.widths
  exact ⟨width', (Descriptor.codec_width _ d').symm.trans hWidth', hCodec.leaf hWidth', nofun⟩

theorem Shape.Renews.array {items items' : List Shape}
    (h : List.Forall₂ (Shape.Renews r') items items') :
    Shape.Renews r' (.array items) (.array items') := by
  refine ⟨?_, nofun⟩
  rw [Shape.part_array, Shape.part_array]
  refine Part.renews_sequence ?_ _ _
  rw [List.forall₂_map_left_iff, List.forall₂_map_right_iff]
  exact h.imp fun _ _ hHead => hHead.part

theorem Shape.Renews.members {members members' : Entries Shape}
    (h : Shape.MembersRenew r' members members') :
    Shape.Renews r' (.object members) (.object members') := by
  refine ⟨?_, fun hSame => ⟨members', rfl, ?_⟩⟩
  · rw [Shape.part_object, Shape.part_object]
    refine Part.renews_object ?_ _ _
    rw [List.forall₂_map_left_iff, List.forall₂_map_right_iff]
    exact h
  · cases hSame
    exact h

theorem EntriesRelated.names_eq {α : Type} {R : α → α → Prop} {xs ys : Entries α}
    (h : EntriesRelated R xs ys) : xs.names = ys.names := keys_eq_of_forall₂ h

theorem EntriesRelated.reordered {α : Type} {R : α → α → Prop} {xs ys : Entries α}
    (h : EntriesRelated R xs ys) (order : List String) :
    EntriesRelated R (order.filterMap fun key => (xs.find? key).map (key, ·))
      (order.filterMap fun key => (ys.find? key).map (key, ·)) := by
  induction order with
  | nil => exact .nil
  | cons key rest ih =>
      rw [List.filterMap_cons, List.filterMap_cons]
      have hFind := h.find? key
      generalize xs.find? key = a?, ys.find? key = b? at hFind
      cases hFind with
      | none => exact ih
      | some hab => exact .cons ⟨rfl, hab⟩ ih

/-- The type of a shape can be built again, with the same order of the keys. -/
theorem Shape.Renews.structural? (hGrows : r.Grows r') {s s' : Shape} (h : s.Renews r' s')
    {order? : Option (List String)} (hBuilt : Descriptor.structural? s order? = .ok d) :
    ∃ d', Descriptor.structural? s' order? = .ok d' ∧ d.Renews r r' d' := by
  have hType : ∀ {s s' : Shape}, s.Renews r' s' →
      (Descriptor.structural s).Renews r r' (.structural s') := fun hShape =>
    .ofPart hGrows hShape.part rfl rfl
  cases order? with
  | none =>
      cases hBuilt
      exact ⟨_, rfl, hType h⟩
  | some order =>
      cases s with
      | object members =>
          obtain ⟨members', rfl, hMembers⟩ := h.object rfl
          unfold Descriptor.structural? at hBuilt ⊢
          dsimp only at hBuilt ⊢
          rw [← hMembers.names_eq]
          split at hBuilt
          · next hPerm =>
              cases hBuilt
              exact ⟨_, if_pos hPerm, hType (.members (hMembers.reordered order))⟩
          · cases hBuilt
      | leaf | array | constant => cases hBuilt

end

/-! ## Expressions -/

namespace Script

mutual

/-- The names of registered types in an expression, and those that a saved type in it mentions. -/
def TypeExpr.mentions (types : Entries Descriptor) : TypeExpr → List String
  | .leaf _ => []
  | .array element _ => element.mentions types
  | .matrix element _ _ => element.mentions types
  | .tuple elements => TypeExpr.mentionsOfAll types elements
  | .composite name => [name]
  | .unregistered _ => []
  | .structural shape _ => shape.mentions types
  | .saved name => ((types.find? name).map Descriptor.mentions).getD []
  | .plain inner => inner.mentions types
  | .misdeclared _ _ => []

/-- The names of registered types in expressions. -/
def TypeExpr.mentionsOfAll (types : Entries Descriptor) : List TypeExpr → List String
  | [] => []
  | t :: rest => t.mentions types ++ TypeExpr.mentionsOfAll types rest

/-- The names of registered types in the expression of a shape. -/
def ShapeExpr.mentions (types : Entries Descriptor) : ShapeExpr → List String
  | .leaf type => type.mentions types
  | .array items => ShapeExpr.mentionsOfAll types items
  | .replicate _ element => element.mentions types
  | .object members => ShapeExpr.mentionsOfMembers types members
  | .constant _ => []

/-- The names of registered types in expressions of shapes. -/
def ShapeExpr.mentionsOfAll (types : Entries Descriptor) : List ShapeExpr → List String
  | [] => []
  | s :: rest => s.mentions types ++ ShapeExpr.mentionsOfAll types rest

/-- The names of registered types in the expressions of members. -/
def ShapeExpr.mentionsOfMembers (types : Entries Descriptor) :
    List (String × ShapeExpr) → List String
  | [] => []
  | (_, s) :: rest => s.mentions types ++ ShapeExpr.mentionsOfMembers types rest

end

section

variable {r r' : Registry} {types : Entries Descriptor}

mutual

/-- A type that could be built can be built again after the registry has grown, and what the old
type does the new one does as well. -/
theorem TypeExpr.build_renews (hGrows : r.Grows r') :
    ∀ (t : TypeExpr) {d : Descriptor}, t.build r types = .ok d →
      (∀ name ∈ t.mentions types, r'.Sized name) →
        ∃ d', t.build r' types = .ok d' ∧ d.Renews r r' d'
  | .leaf type, _, hBuilt, _ => by
      cases hBuilt
      exact ⟨_, rfl, Descriptor.renews_self hGrows nofun⟩
  | .array element length, _, hBuilt, hSized => by
      obtain ⟨d, hd, hBuilt⟩ := bind_eq_ok.1 hBuilt
      cases hBuilt
      obtain ⟨d', hd', hRenews⟩ := TypeExpr.build_renews hGrows element hd hSized
      exact ⟨_, bind_eq_ok.2 ⟨d', hd', rfl⟩, hRenews.array hGrows length⟩
  | .matrix element rows columns, _, hBuilt, hSized => by
      obtain ⟨d, hd, hBuilt⟩ := bind_eq_ok.1 hBuilt
      cases hBuilt
      obtain ⟨d', hd', hRenews⟩ := TypeExpr.build_renews hGrows element hd hSized
      exact ⟨_, bind_eq_ok.2 ⟨d', hd', rfl⟩, (hRenews.array hGrows columns).array hGrows rows⟩
  | .tuple elements, _, hBuilt, hSized => by
      obtain ⟨ds, hds, hBuilt⟩ := bind_eq_ok.1 hBuilt
      cases hBuilt
      obtain ⟨ds', hds', hRenews⟩ := TypeExpr.buildAll_renews hGrows elements hds hSized
      exact ⟨_, bind_eq_ok.2 ⟨ds', hds', rfl⟩, .tuple hGrows hRenews⟩
  | .composite name, _, hBuilt, hSized => by
      cases hBuilt
      exact ⟨_, rfl, Descriptor.renews_composite hGrows (hSized name List.mem_cons_self) _ _⟩
  | .unregistered _, _, hBuilt, _ => by
      cases hBuilt
      exact ⟨_, rfl, Descriptor.renews_self hGrows nofun⟩
  | .structural shape order?, _, hBuilt, hSized => by
      obtain ⟨s, hs, hBuilt⟩ := bind_eq_ok.1 hBuilt
      obtain ⟨s', hs', hRenews⟩ := ShapeExpr.build_renews hGrows shape hs hSized
      obtain ⟨d', hd', hType⟩ := hRenews.structural? hGrows hBuilt
      exact ⟨d', bind_eq_ok.2 ⟨s', hs', hd'⟩, hType⟩
  | .saved name, d, hBuilt, hSized => by
      refine ⟨d, hBuilt, Descriptor.renews_self hGrows fun other hOther => hSized other ?_⟩
      rw [TypeExpr.build] at hBuilt
      rw [TypeExpr.mentions]
      cases hFind : types.find? name with
      | none =>
          rw [hFind] at hBuilt
          cases hBuilt
      | some saved =>
          rw [hFind] at hBuilt
          cases hBuilt
          exact hOther
  | .plain inner, _, hBuilt, hSized => by
      obtain ⟨d, hd, hBuilt⟩ := bind_eq_ok.1 hBuilt
      cases hBuilt
      obtain ⟨d', hd', hRenews⟩ := TypeExpr.build_renews hGrows inner hd hSized
      exact ⟨_, bind_eq_ok.2 ⟨d', hd', rfl⟩, hRenews.plain⟩
  | .misdeclared _ _, _, hBuilt, _ => by
      cases hBuilt
      exact ⟨_, rfl, Descriptor.renews_self hGrows nofun⟩

theorem TypeExpr.buildAll_renews (hGrows : r.Grows r') :
    ∀ (ts : List TypeExpr) {ds : List Descriptor}, TypeExpr.buildAll r types ts = .ok ds →
      (∀ name ∈ TypeExpr.mentionsOfAll types ts, r'.Sized name) →
        ∃ ds', TypeExpr.buildAll r' types ts = .ok ds' ∧
          List.Forall₂ (Descriptor.Renews r r') ds ds'
  | [], _, hBuilt, _ => by
      cases hBuilt
      exact ⟨[], rfl, .nil⟩
  | t :: rest, _, hBuilt, hSized => by
      obtain ⟨d, hd, hBuilt⟩ := bind_eq_ok.1 hBuilt
      obtain ⟨ds, hds, hBuilt⟩ := bind_eq_ok.1 hBuilt
      cases hBuilt
      obtain ⟨d', hd', hHead⟩ := TypeExpr.build_renews hGrows t hd fun name hName =>
        hSized name (List.mem_append_left _ hName)
      obtain ⟨ds', hds', hRest⟩ := TypeExpr.buildAll_renews hGrows rest hds fun name hName =>
        hSized name (List.mem_append_right _ hName)
      exact ⟨d' :: ds', bind_eq_ok.2 ⟨d', hd', bind_eq_ok.2 ⟨ds', hds', rfl⟩⟩, .cons hHead hRest⟩

/-- A shape that could be built can be built again after the registry has grown. -/
theorem ShapeExpr.build_renews (hGrows : r.Grows r') :
    ∀ (e : ShapeExpr) {s : Shape}, e.build r types = .ok s →
      (∀ name ∈ e.mentions types, r'.Sized name) →
        ∃ s', e.build r' types = .ok s' ∧ s.Renews r' s'
  | .leaf type, _, hBuilt, hSized => by
      obtain ⟨d, hd, hBuilt⟩ := bind_eq_ok.1 hBuilt
      obtain ⟨width, hWidth, hBuilt⟩ := bind_eq_ok.1 hBuilt
      cases hBuilt
      obtain ⟨d', hd', hRenews⟩ := TypeExpr.build_renews hGrows type hd hSized
      obtain ⟨width', hWidth', hShape⟩ := Shape.Renews.leaf hRenews hWidth
      exact ⟨_, bind_eq_ok.2 ⟨d', hd', bind_eq_ok.2 ⟨width', hWidth', rfl⟩⟩, hShape⟩
  | .array items, _, hBuilt, hSized => by
      obtain ⟨shapes, hShapes, hBuilt⟩ := bind_eq_ok.1 hBuilt
      cases hBuilt
      obtain ⟨shapes', hShapes', hRenews⟩ := ShapeExpr.buildAll_renews hGrows items hShapes hSized
      exact ⟨_, bind_eq_ok.2 ⟨shapes', hShapes', rfl⟩, .array hRenews⟩
  | .replicate count element, _, hBuilt, hSized => by
      obtain ⟨s, hs, hBuilt⟩ := bind_eq_ok.1 hBuilt
      cases hBuilt
      obtain ⟨s', hs', hRenews⟩ := ShapeExpr.build_renews hGrows element hs hSized
      exact ⟨_, bind_eq_ok.2 ⟨s', hs', rfl⟩, .array (forall₂_replicate hRenews count)⟩
  | .object members, _, hBuilt, hSized => by
      obtain ⟨shapes, hShapes, hBuilt⟩ := bind_eq_ok.1 hBuilt
      cases hBuilt
      obtain ⟨shapes', hShapes', hRenews⟩ :=
        ShapeExpr.buildMembers_renews hGrows members hShapes hSized
      exact ⟨_, bind_eq_ok.2 ⟨shapes', hShapes', rfl⟩, .members hRenews.ofList⟩
  | .constant json, _, hBuilt, _ => by
      cases hBuilt
      exact ⟨_, rfl, Part.renews_constant _ _ json, nofun⟩

theorem ShapeExpr.buildAll_renews (hGrows : r.Grows r') :
    ∀ (es : List ShapeExpr) {shapes : List Shape}, ShapeExpr.buildAll r types es = .ok shapes →
      (∀ name ∈ ShapeExpr.mentionsOfAll types es, r'.Sized name) →
        ∃ shapes', ShapeExpr.buildAll r' types es = .ok shapes' ∧
          List.Forall₂ (Shape.Renews r') shapes shapes'
  | [], _, hBuilt, _ => by
      cases hBuilt
      exact ⟨[], rfl, .nil⟩
  | e :: rest, _, hBuilt, hSized => by
      obtain ⟨s, hs, hBuilt⟩ := bind_eq_ok.1 hBuilt
      obtain ⟨shapes, hShapes, hBuilt⟩ := bind_eq_ok.1 hBuilt
      cases hBuilt
      obtain ⟨s', hs', hHead⟩ := ShapeExpr.build_renews hGrows e hs fun name hName =>
        hSized name (List.mem_append_left _ hName)
      obtain ⟨shapes', hShapes', hRest⟩ := ShapeExpr.buildAll_renews hGrows rest hShapes
        fun name hName => hSized name (List.mem_append_right _ hName)
      exact ⟨s' :: shapes', bind_eq_ok.2 ⟨s', hs', bind_eq_ok.2 ⟨shapes', hShapes', rfl⟩⟩,
        .cons hHead hRest⟩

theorem ShapeExpr.buildMembers_renews (hGrows : r.Grows r') :
    ∀ (es : List (String × ShapeExpr)) {members : Entries Shape},
      ShapeExpr.buildMembers r types es = .ok members →
        (∀ name ∈ ShapeExpr.mentionsOfMembers types es, r'.Sized name) →
          ∃ members', ShapeExpr.buildMembers r' types es = .ok members' ∧
            Shape.MembersRenew r' members members'
  | [], _, hBuilt, _ => by
      cases hBuilt
      exact ⟨[], rfl, .nil⟩
  | (key, e) :: rest, _, hBuilt, hSized => by
      obtain ⟨s, hs, hBuilt⟩ := bind_eq_ok.1 hBuilt
      obtain ⟨members, hMembers, hBuilt⟩ := bind_eq_ok.1 hBuilt
      cases hBuilt
      obtain ⟨s', hs', hHead⟩ := ShapeExpr.build_renews hGrows e hs fun name hName =>
        hSized name (List.mem_append_left _ hName)
      obtain ⟨members', hMembers', hRest⟩ := ShapeExpr.buildMembers_renews hGrows rest hMembers
        fun name hName => hSized name (List.mem_append_right _ hName)
      exact ⟨(key, s') :: members',
        bind_eq_ok.2 ⟨s', hs', bind_eq_ok.2 ⟨members', hMembers', rfl⟩⟩,
        .cons ⟨rfl, hHead.part⟩ hRest⟩

end

end

end Script

/--
A type that was built at one point of a history, after any later calls, on a machine on which its
sizes fit. Whatever it is given, no share that it takes reaches beyond its list: the machine makes
no difference to it. The same expression can be built again, and whenever the old type flattens a
value or brings one back, the new one does so with the same result. If the sizes of the new one fit
as well, this holds on the machine.

The registered types in the expression have a width after the calls. By `Registry.sized_iff` only
those have none that can be made of themselves.
-/
theorem Registry.built_earlier {m : Machine} (held : Holding) (later : List Call)
    (types : Entries Descriptor) (e : Script.TypeExpr) {d : Descriptor}
    (hBuilt : e.build held.registry types = .ok d)
    (hSized : ∀ name ∈ e.mentions types, (later.foldl Holding.step held).registry.Sized name)
    (hFits : (later.foldl Holding.step held).registry.Fits m d) :
    (later.foldl Holding.step held).registry.machineCodec m d =
      (later.foldl Holding.step held).registry.codec d ∧
    ∃ d', e.build (later.foldl Holding.step held).registry types = .ok d' ∧
      ((later.foldl Holding.step held).registry.Fits m d' →
        (later.foldl Holding.step held).registry.machineCodec m d' =
          (later.foldl Holding.step held).registry.codec d') ∧
      (∀ v fields, ((later.foldl Holding.step held).registry.codec d).toFields v = .ok fields →
        ((later.foldl Holding.step held).registry.codec d').toFields v = .ok fields) ∧
      ∀ fields aux v,
        ((later.foldl Holding.step held).registry.codec d).ofFieldsWithAux fields aux = .ok v →
        ((later.foldl Holding.step held).registry.codec d').ofFieldsWithAux fields aux = .ok v := by
  refine ⟨machineCodec_eq hFits, ?_⟩
  obtain ⟨d', hd', start, -, hRenews⟩ := e.build_renews (grows_steps held later) hBuilt hSized
  exact ⟨d', hd', machineCodec_eq, fun _ _ => hRenews.toFields,
    fun _ _ _ => hRenews.ofFieldsWithAux⟩

/-! ## Sealed letters -/

/-- Letters have a number, and nothing else yet. -/
private def unsealed : Registry.Holding :=
  Registry.after [.register "Letter" "number" (some .uint32)]

/-- A letter beside a shape of a letter. -/
private def letterPair : Script.TypeExpr :=
  .tuple [.composite "Letter", .structural (.object [("copy", .leaf (.composite "Letter"))]) none]

/-- A sealed letter. -/
private def sealedLetter (number : Element) : Value :=
  .record (some "Letter") [("number", .ofElement number), ("seal", .opaqueValue "wax")]

/-- A machine with room for two elements. -/
private def drawer : Machine := .checking 2 (by decide) (.recursiveType "")

/-- A pair of sealed letters flattens as the pair of letters from before letters had seals does,
also where there is room for the two numbers alone. -/
theorem Registry.built_earlier_letters :
    ∃ d', letterPair.build
        (unsealed.step (.register "Letter" "seal" (some .opaqueHost))).registry [] = .ok d' ∧
      ((unsealed.step (.register "Letter" "seal" (some .opaqueHost))).registry.machineCodec drawer
        d').toFields (.array [sealedLetter 1, .record none [("copy", sealedLetter 2)]]) =
          .ok [.constant 1, .constant 2] := by
  have hSized : (unsealed.step (.register "Letter" "seal" (some .opaqueHost))).registry.Sized
      "Letter" := ⟨⟨1, 1⟩, rfl⟩
  obtain ⟨-, d', hd', hMachine, hFlatten, -⟩ := Registry.built_earlier (m := drawer) unsealed
    [.register "Letter" "seal" (some .opaqueHost)] [] letterPair rfl (fun name hName => by
      rcases hName with _ | ⟨_, _ | ⟨_, hName⟩⟩
      · exact hSized
      · exact hSized
      · cases hName) ⟨_, rfl⟩
  have hNew := hFlatten (.array [sealedLetter 1, .record none [("copy", sealedLetter 2)]])
    [.constant 1, .constant 2] rfl
  have hFits : (unsealed.step (.register "Letter" "seal" (some .opaqueHost))).registry.Fits drawer
      d' := by
    cases hd'
    exact ⟨_, rfl⟩
  exact ⟨d', hd', (congrArg (fun c : Codec => c.toFields _) (hMachine hFits)).trans hNew⟩

end TypedCircuit
