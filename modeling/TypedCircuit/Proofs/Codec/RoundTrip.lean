import TypedCircuit.Proofs.Codec.Regular

/-!
# Elements and auxiliary data determine a value

A value of a regular type that flattens is known from its elements and its auxiliary data, up
to what the type ignores: decoding brings back the canonical form of the value. The canonical
form is told apart by nothing that a circuit sees, and it is the value itself where the value
was canonical.

## Main results

* `Descriptor.Regular.decode_flatten` — decoding what a value was flattened to.
-/

namespace TypedCircuit

/--
A value of a regular type that flattens has as many elements and auxiliary entries as the type
declares, and they decode to its canonical form. The canonical form has the same elements and
auxiliary entries, and equals the value if that was in canonical form.
-/
theorem Descriptor.Regular.decode_flatten {r : Registry} {d : Descriptor} (h : d.Regular r)
    {v : Value} {fields : List Signal} (hFlat : (r.codec d).toFields v = .ok fields) :
    ∃ width, (r.codec d).width () = .ok width ∧ fields.length = width.fields ∧
      ((r.codec d).auxiliary v).length = width.aux ∧
      (r.codec d).ofFieldsWithAux fields ((r.codec d).auxiliary v) = .ok (v.canonical r d) ∧
      (r.codec d).toFields (v.canonical r d) = .ok fields ∧
      (r.codec d).auxiliary (v.canonical r d) = (r.codec d).auxiliary v ∧
      (v.canonical r d).IsCanonical r d ∧
      (v.IsCanonical r d → (v == v.canonical r d) = true) := by
  obtain ⟨width, rules, hLaw⟩ := h.lawful
  obtain ⟨hSame, hAux, hCanonical⟩ := hLaw.flatten_canonical hFlat
  exact ⟨width, hLaw.width_eq, hLaw.fields_length hFlat, hLaw.aux_length hFlat,
    hLaw.rebuild_flatten hFlat, hSame, hAux, hCanonical, fun hv => hv.beq_canonical⟩

/-! ## A value that is accepted leniently -/

/-- A registry with points, of which only the first coordinate is visible to circuits. -/
private def points : Registry := ⟨[("Point", [("x", .field), ("on", .boolean), ("tag", .opaqueHost)])]⟩

/-- A shape over points in a custom order of keys, with a constant and an empty object. -/
private def labelled : Descriptor := .structural (.object
  [("point", .leaf (.array (.composite "Point" false) 1) ⟨2, 1⟩), ("none", .object []),
    ("version", .constant (.bool true))])

/-- A labelled point with a surplus member, a record of no type where a point is expected and a
signal where nothing is taken. -/
private def lenient : Value := .record (some "Label")
  [("none", .ofElement 5), ("point", .array [.record none [("on", .ofBool true),
      ("tag", .opaqueValue "host"), ("x", .ofElement 7)]]), ("surplus", .null),
    ("version", .primitive (.bool true))]

private theorem regular_labelled : labelled.Regular points := by
  refine .structural (.object (by decide) ?_)
  have hPoint : (Descriptor.composite "Point" false).Regular points := by
    refine .composite (by decide) ?_ false
    intro m hm
    rcases hm with _ | ⟨_, _ | ⟨_, _ | ⟨_, hm⟩⟩⟩
    · exact .leaf .field
    · exact .leaf .boolean
    · exact .leaf .opaqueHost
    · cases hm
  intro m hm
  rcases hm with _ | ⟨_, _ | ⟨_, _ | ⟨_, hm⟩⟩⟩
  · exact .leaf (.array hPoint 1) rfl
  · exact .object List.nodup_nil nofun
  · exact .constant _
  · cases hm

/-- A lenient value comes back strict: its point has a type, its surplus member is gone, and the
empty record stands where nothing is taken. -/
theorem decode_flatten_lenient :
    (points.codec labelled).toFields lenient = .ok [.constant 7, .constant 1] ∧
      (points.codec labelled).ofFieldsWithAux [.constant 7, .constant 1]
          [.opaqueValue "host"] =
        .ok (.record none [("none", .record none []),
          ("point", .array [.record (some "Point") [("on", .ofBool true),
            ("tag", .opaqueValue "host"), ("x", .ofElement 7)]]),
          ("version", .primitive (.bool true))]) := by
  have hFlat : (points.codec labelled).toFields lenient = .ok [.constant 7, .constant 1] := rfl
  obtain ⟨_, _, _, _, hBack, _⟩ := regular_labelled.decode_flatten hFlat
  exact ⟨hFlat, hBack⟩

end TypedCircuit
