import TypedCircuit.Codec.Custom
import TypedCircuit.Codec.Leaf
import TypedCircuit.Proofs.Success

/-!
# Laws of parts

A part is a bundle of operations. A `Part.Law` says in data what they do together: how many
elements and auxiliary entries there are, what is asserted of each element, which value
comes back from the elements and the auxiliary entries of a value, and what the values look
like that come back. A part is *lawful* when its operations do what a law says.

A law speaks of the values that flatten, and of shares whose counts are right and whose
auxiliary entries are host data. For those it leaves nothing open, so a statement about a
lawful part needs none of its operations, and a law for a larger type is put together from
the laws of its parts.

## Main results

* `Part.Lawful.flatten_canonical` — the value that comes back flattens to the same elements.
* `Codec.lawful_part` — counting changes nothing for a lawful part.
* `Leaf.lawful` — the built-in types are lawful.
-/

namespace TypedCircuit

/-! ## Rules -/

/-- What a type asserts of one element. -/
inductive Rule where
  /-- Nothing. -/
  | free
  /-- Zero or one. -/
  | boolean
  /-- Below `2 ^ bits`. -/
  | range (bits : Nat)
deriving DecidableEq

/-- Asserts a rule. -/
def Rule.assert (s : Signal) : Rule → Circuit Unit
  | .free => pure ()
  | .boolean => s.assertBoolean
  | .range bits => s.assertRange bits

/-- Asserts rules of elements, in order. -/
def assertRules (rules : List Rule) (fields : List Signal) : Circuit Unit :=
  (rules.zip fields).forM fun (rule, s) => rule.assert s

theorem assertRules_nil (fields : List Signal) : assertRules [] fields = pure () := rfl

theorem assertRules_singleton (rule : Rule) (s : Signal) :
    assertRules [rule] [s] = rule.assert s := by
  show (rule.assert s >>= fun _ => pure PUnit.unit) = _
  rw [bind_pure_unit]

theorem assertRules_append {rules₁ : List Rule} {fields₁ : List Signal}
    (h : rules₁.length = fields₁.length) (rules₂ : List Rule) (fields₂ : List Signal) :
    assertRules (rules₁ ++ rules₂) (fields₁ ++ fields₂) =
      assertRules rules₁ fields₁ >>= fun _ => assertRules rules₂ fields₂ := by
  rw [assertRules, List.zip_append h]
  exact List.forM_append

/-! ## Laws -/

/-- Whether a value is data that never enters the circuit: a host value or nothing. -/
def Value.HostData (v : Value) : Prop := Codec.expectOpaque v = .ok ()

theorem Value.hostData_null : Value.null.HostData := rfl

theorem Value.hostData_nulls (count : Nat) : ∀ a ∈ List.replicate count Value.null, a.HostData := by
  intro a ha
  rw [List.eq_of_mem_replicate ha]
  exact hostData_null

/-- What the operations of a part do together. -/
structure Part.Law where
  /-- The share. -/
  width : Width
  /-- What is asserted of the elements. -/
  rules : List Rule
  /-- The value that comes back from what a value is flattened to. -/
  canonical : Value → Value
  /-- What a value that comes back looks like. -/
  normal : Value → Prop

/-- The operations of a part do what a law says. -/
structure Part.Lawful (p : Part) (law : Part.Law) : Prop where
  width_eq : p.width () = .ok law.width
  rules_length : law.rules.length = law.width.fields
  fields_length {v : Value} {fields : List Signal} (h : p.flatten v = .ok fields) :
    fields.length = law.width.fields
  aux_length {v : Value} {fields : List Signal} (h : p.flatten v = .ok fields) :
    (p.auxiliary v).length = law.width.aux
  aux_hostData {v : Value} {fields : List Signal} (h : p.flatten v = .ok fields) :
    ∀ a ∈ p.auxiliary v, a.HostData
  check_eq {v : Value} {fields : List Signal} (h : p.flatten v = .ok fields) :
    p.check v = assertRules law.rules fields
  rebuild_flatten {v : Value} {fields : List Signal} (h : p.flatten v = .ok fields) :
    p.rebuild fields (p.auxiliary v) = .ok (law.canonical v)
  rebuild_ok {fields : List Signal} {aux : List Value}
    (hFields : fields.length = law.width.fields) (hAux : aux.length = law.width.aux)
    (hHost : ∀ a ∈ aux, a.HostData) :
    ∃ v, p.rebuild fields aux = .ok v ∧ p.flatten v = .ok fields ∧ p.auxiliary v = aux ∧
      law.normal v

namespace Part.Lawful

variable {p : Part} {law : Part.Law} {v : Value} {fields : List Signal}

/-- The value that comes back flattens to the elements it came from, carries the same
auxiliary entries and has normal form. -/
theorem flatten_canonical (h : p.Lawful law) (hFlat : p.flatten v = .ok fields) :
    p.flatten (law.canonical v) = .ok fields ∧
      p.auxiliary (law.canonical v) = p.auxiliary v ∧ law.normal (law.canonical v) := by
  obtain ⟨back, hBack, hSame⟩ := h.rebuild_ok (h.fields_length hFlat) (h.aux_length hFlat)
    (h.aux_hostData hFlat)
  rw [h.rebuild_flatten hFlat] at hBack
  cases hBack
  exact hSame

/-- A law can say what comes back in other words, as long as they agree on the values that
flatten and on the values that come back. -/
theorem restate (h : p.Lawful law) {canonical : Value → Value} {normal : Value → Prop}
    (hCanonical : ∀ v fields, p.flatten v = .ok fields → law.canonical v = canonical v)
    (hNormal : ∀ v, law.normal v → normal v) :
    p.Lawful ⟨law.width, law.rules, canonical, normal⟩ where
  width_eq := h.width_eq
  rules_length := h.rules_length
  fields_length := h.fields_length
  aux_length := h.aux_length
  aux_hostData := h.aux_hostData
  check_eq := h.check_eq
  rebuild_flatten hFlat := by rw [h.rebuild_flatten hFlat, hCanonical _ _ hFlat]
  rebuild_ok hFields hAux hHost := by
    obtain ⟨v, hBack, hFlat, hSame, hv⟩ := h.rebuild_ok hFields hAux hHost
    exact ⟨v, hBack, hFlat, hSame, hNormal v hv⟩

/-- A part that does what a lawful part does is lawful. The two have to agree on the values
that flatten and on the shares whose counts are right. -/
theorem of_agree {q : Part} (h : p.Lawful law) (hWidth : q.width () = p.width ())
    (hFlatten : ∀ v fields, q.flatten v = .ok fields ↔ p.flatten v = .ok fields)
    (hOther : ∀ v fields, p.flatten v = .ok fields →
      q.auxiliary v = p.auxiliary v ∧ q.check v = p.check v)
    (hRebuild : ∀ fields aux, fields.length = law.width.fields → aux.length = law.width.aux →
      q.rebuild fields aux = p.rebuild fields aux) : q.Lawful law where
  width_eq := hWidth.trans h.width_eq
  rules_length := h.rules_length
  fields_length hFlat := h.fields_length ((hFlatten _ _).1 hFlat)
  aux_length hFlat := by
    have hFlat := (hFlatten _ _).1 hFlat
    rw [(hOther _ _ hFlat).1]
    exact h.aux_length hFlat
  aux_hostData hFlat := by
    have hFlat := (hFlatten _ _).1 hFlat
    rw [(hOther _ _ hFlat).1]
    exact h.aux_hostData hFlat
  check_eq hFlat := by
    have hFlat := (hFlatten _ _).1 hFlat
    rw [(hOther _ _ hFlat).2]
    exact h.check_eq hFlat
  rebuild_flatten hFlat := by
    have hFlat := (hFlatten _ _).1 hFlat
    rw [(hOther _ _ hFlat).1, hRebuild _ _ (h.fields_length hFlat) (h.aux_length hFlat)]
    exact h.rebuild_flatten hFlat
  rebuild_ok hFields hAux hHost := by
    obtain ⟨v, hBack, hFlat, hSame, hv⟩ := h.rebuild_ok hFields hAux hHost
    refine ⟨v, ?_, (hFlatten _ _).2 hFlat, ?_, hv⟩
    · rw [hRebuild _ _ hFields hAux, hBack]
    · rw [(hOther _ _ hFlat).1, hSame]

end Part.Lawful

/-! ## Counting -/

namespace Codec

/-- A codec at a position, without any count being verified. -/
def uncounted (c : Codec) : Part where
  typeName := c.typeName
  width := c.width
  flatten := c.flatten
  auxiliary := c.auxiliary
  rebuild := c.rebuild
  check := c.check
  input := c.input
  encode := c.encode
  decode := c.decode

section

variable {width : Width} {fields : List Signal} {aux : List Value}

/-- A codec that is given as many auxiliary entries as it has rebuilds a value. -/
theorem ofFieldsWithAux_eq {c : Codec} (hWidth : c.width () = .ok width)
    (hAux : aux.length = width.aux) : c.ofFieldsWithAux fields aux = c.rebuild fields aux := by
  unfold ofFieldsWithAux
  rw [hWidth]
  exact if_pos hAux

/-- A part that is given exactly its counts rebuilds a value. -/
theorem rebuildExactly_eq {p : Part} (hWidth : p.width () = .ok width)
    (hFields : fields.length = width.fields) (hAux : aux.length = width.aux) :
    rebuildExactly p fields aux = p.rebuild fields aux := by
  unfold rebuildExactly
  rw [hWidth]
  exact (if_neg (not_not_intro hFields)).trans (if_neg (not_not_intro hAux))

end

variable {c : Codec} {law : Part.Law}

/-- Counted elements are the elements. -/
theorem flatten_of_toFields {v : Value} {fields : List Signal} (h : c.toFields v = .ok fields) :
    c.flatten v = .ok fields := by
  obtain ⟨out, hOut, h⟩ := bind_eq_ok.1 h
  obtain ⟨width, -, h⟩ := bind_eq_ok.1 h
  split at h
  · cases h; exact hOut
  · cases h

/-- Elements whose number is right are counted. -/
theorem toFields_of_flatten {v : Value} {fields : List Signal} {width : Width}
    (hFlat : c.flatten v = .ok fields) (hWidth : c.width () = .ok width)
    (hLength : fields.length = width.fields) : c.toFields v = .ok fields :=
  bind_eq_ok.2 ⟨fields, hFlat, bind_eq_ok.2 ⟨width, hWidth, if_pos hLength⟩⟩

theorem toFields_eq_ok (h : c.uncounted.Lawful law) {v : Value} {fields : List Signal} :
    c.toFields v = .ok fields ↔ c.flatten v = .ok fields :=
  ⟨flatten_of_toFields, fun hFlat => toFields_of_flatten hFlat h.width_eq (h.fields_length hFlat)⟩

/-- Counting changes nothing for a lawful part: its counts are right. -/
theorem lawful_part (h : c.uncounted.Lawful law) : c.part.Lawful law := by
  refine h.of_agree rfl (fun _ _ => toFields_eq_ok h) (fun _ _ _ => ⟨rfl, rfl⟩) ?_
  intro fields aux _ hAux
  exact ofFieldsWithAux_eq h.width_eq hAux

/-- The type that takes exactly the counts of a lawful part does what the part does. -/
theorem uncounted_ofPart {p : Part} (h : p.Lawful law) (capabilities : Capabilities) :
    (ofPart p capabilities).uncounted.Lawful law := by
  refine h.of_agree rfl (fun _ _ => Iff.rfl) (fun _ _ _ => ⟨rfl, rfl⟩) ?_
  intro fields aux hFields hAux
  exact rebuildExactly_eq h.width_eq hFields hAux

theorem lawful_ofPart {p : Part} (h : p.Lawful law) (capabilities : Capabilities) :
    (ofPart p capabilities).part.Lawful law := lawful_part (uncounted_ofPart h capabilities)

/-- A type without the optional capabilities of another one has its law. -/
theorem lawful_plain (h : c.part.Lawful law) (typeName : String) :
    (plain typeName c).part.Lawful law :=
  lawful_part (h.of_agree rfl (fun _ _ => Iff.rfl) (fun _ _ _ => ⟨rfl, rfl⟩)
    fun _ _ _ _ => rfl)

end Codec

/-! ## The built-in types -/

namespace Codec

theorem expectSignal_eq_ok {typeName : String} {v : Value} {s : Signal} :
    expectSignal typeName v = .ok s ↔ v = .signal s := by
  cases v <;> simp [expectSignal, Value.signal?]

theorem expectBit_eq_ok {v : Value} {b : Bit} : expectBit v = .ok b ↔ v = .bit b := by
  cases v <;> simp [expectBit, Value.bit?]

end Codec

namespace Leaf

/-- What a built-in type asserts of its elements. -/
def rules : Leaf → List Rule
  | .field => [.free]
  | .boolean => [.boolean]
  | .uint32 => [.range 32]
  | .opaqueHost => []

/-- The law of a built-in type: a value comes back as it was. -/
def law (leaf : Leaf) : Part.Law := ⟨leaf.width, leaf.rules, id, fun _ => True⟩

/-- What the elements of a value of a built-in type are. -/
inductive Flattens : Leaf → Value → List Signal → Prop where
  | field (s : Signal) : Flattens .field (.signal s) [s]
  | boolean (b : Bit) : Flattens .boolean (.bit b) [b.signal]
  | uint32 (s : Signal) : Flattens .uint32 (.signal s) [s]
  | opaqueHost {v : Value} (h : v.HostData) : Flattens .opaqueHost v []

theorem flattens_of_eq_ok {leaf : Leaf} {v : Value} {fields : List Signal}
    (h : leaf.codec.flatten v = .ok fields) : leaf.Flattens v fields := by
  cases leaf with
  | field =>
      obtain ⟨s, hs, rfl⟩ := map_eq_ok.1 h
      rw [Codec.expectSignal_eq_ok.1 hs]
      exact .field s
  | boolean =>
      obtain ⟨b, hb, rfl⟩ := map_eq_ok.1 h
      rw [Codec.expectBit_eq_ok.1 hb]
      exact .boolean b
  | uint32 =>
      obtain ⟨s, hs, rfl⟩ := map_eq_ok.1 h
      rw [Codec.expectSignal_eq_ok.1 hs]
      exact .uint32 s
  | opaqueHost =>
      obtain ⟨_, hv, rfl⟩ := map_eq_ok.1 h
      exact .opaqueHost hv

/-- The value of right counts, with host data for auxiliary data. -/
theorem exists_flattens {leaf : Leaf} {fields : List Signal} {aux : List Value}
    (hFields : fields.length = leaf.width.fields) (hAux : aux.length = leaf.width.aux)
    (hHost : ∀ a ∈ aux, a.HostData) :
    ∃ v, leaf.codec.rebuild fields aux = .ok v ∧ leaf.codec.flatten v = .ok fields ∧
      leaf.codec.auxiliary v = aux := by
  cases leaf with
  | field =>
      obtain ⟨s, rfl⟩ := List.length_eq_one_iff.1 hFields
      obtain rfl := List.length_eq_zero_iff.1 hAux
      exact ⟨.signal s, rfl, rfl, rfl⟩
  | boolean =>
      obtain ⟨s, rfl⟩ := List.length_eq_one_iff.1 hFields
      obtain rfl := List.length_eq_zero_iff.1 hAux
      exact ⟨.bit ⟨s⟩, rfl, rfl, rfl⟩
  | uint32 =>
      obtain ⟨s, rfl⟩ := List.length_eq_one_iff.1 hFields
      obtain rfl := List.length_eq_zero_iff.1 hAux
      exact ⟨.signal s, rfl, rfl, rfl⟩
  | opaqueHost =>
      obtain rfl := List.length_eq_zero_iff.1 hFields
      obtain ⟨v, rfl⟩ := List.length_eq_one_iff.1 hAux
      have hv : v.HostData := hHost v (List.mem_singleton_self v)
      refine ⟨v, rfl, ?_, rfl⟩
      show (Codec.expectOpaque v).map _ = _
      rw [hv]
      rfl

/-- The built-in types are lawful. -/
theorem lawful (leaf : Leaf) : leaf.codec.part.Lawful leaf.law := by
  refine Codec.lawful_part ?_
  exact {
    width_eq := leaf.codec_width
    rules_length := by cases leaf <;> rfl
    fields_length := fun h => by cases flattens_of_eq_ok h <;> rfl
    aux_length := fun h => by cases flattens_of_eq_ok h <;> rfl
    aux_hostData := fun {v _} h a ha => by
      cases flattens_of_eq_ok h with
      | field | boolean | uint32 => cases ha
      | opaqueHost hv => rwa [List.mem_singleton.1 ha]
    check_eq := fun h => by
      cases flattens_of_eq_ok h with
      | field s => rfl
      | boolean b => exact (assertRules_singleton .boolean b.signal).symm
      | uint32 s => exact (assertRules_singleton (.range 32) s).symm
      | opaqueHost hv =>
          show (liftM (Codec.expectOpaque _) : Circuit Unit) = _
          rw [hv]
          rfl
    rebuild_flatten := fun h => by cases flattens_of_eq_ok h <;> rfl
    rebuild_ok := fun hFields hAux hHost => by
      obtain ⟨v, hBack, hFlat, hSame⟩ := exists_flattens hFields hAux hHost
      exact ⟨v, hBack, hFlat, hSame, trivial⟩ }

end Leaf

end TypedCircuit
