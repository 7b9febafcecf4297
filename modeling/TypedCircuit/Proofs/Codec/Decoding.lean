import TypedCircuit.Proofs.Codec.Counts
import TypedCircuit.Proofs.Codec.Fitting

/-!
# Decoding any elements and entries

What a regular type makes of elements and auxiliary entries is decided by their numbers, as far as
its sizes can be computed. The theorem below is therefore about types whose sizes fit on a machine.
There the numbers that are compared are words, and the machine does to all elements and entries what
the type does.

## Main results

* `Descriptor.Regular.flatten_decode` — what is decoded from any elements and entries.
-/

namespace TypedCircuit

/--
What is decoded with a regular type from any elements and auxiliary entries. The right numbers
of both come back as a value. It carries the entries; it flattens to the elements if every
entry is a host value or a null, and is refused for an entry that is neither otherwise. Other
numbers are refused, the number of entries before the number of elements, except that a
registered type ignores elements beyond its own.

The sizes of the type have to fit on a machine. Then they are words, and the machine does the same.
-/
theorem Descriptor.Regular.flatten_decode {r : Registry} {d : Descriptor} {m : Machine}
    (h : d.Regular r) (hFits : r.Fits m d) (fields : List Signal) (aux : List Value) :
    r.machineCodec m d = r.codec d ∧
    ∃ width, r.wordWidth d = some width ∧ (r.codec d).width () = .ok width ∧
      (fields.length = width.fields → aux.length = width.aux →
        ∃ v, (r.codec d).ofFieldsWithAux fields aux = .ok v ∧
          (r.codec d).auxiliary v = aux ∧
          ((∀ a ∈ aux, (∃ identity, a = .opaqueValue identity) ∨ a = .null) →
            (r.codec d).toFields v = .ok fields) ∧
          (¬ (∀ a ∈ aux, (∃ identity, a = .opaqueValue identity) ∨ a = .null) →
            ∃ a ∈ aux, (r.codec d).toFields v =
              .error (.shape "Opaque" .opaqueValue (.kind a.form)))) ∧
      (aux.length ≠ width.aux →
        (r.codec d).ofFieldsWithAux fields aux =
          .error (.auxiliary (r.codec d).typeName width.aux aux.length)) ∧
      (aux.length = width.aux → fields.length ≠ width.fields →
        fields.length < width.fields ∨ d.ignoresSurplus = false →
          ∃ typeName, (r.codec d).ofFieldsWithAux fields aux =
            .error (.elements typeName width.fields fields.length)) ∧
      (aux.length = width.aux → width.fields < fields.length → d.ignoresSurplus = true →
        (r.codec d).ofFieldsWithAux fields aux =
          (r.codec d).ofFieldsWithAux (fields.take width.fields) aux) := by
  obtain ⟨width, hTotal⟩ := h.total
  have hWidth : (r.codec d).width () = .ok width := hTotal.width_eq
  have hCounts := h.counts hWidth
  obtain ⟨own, hWords, hOwn⟩ := hFits.wordWidth
  cases hWidth.symm.trans ((Registry.codec_part_width d).trans hOwn)
  refine ⟨Registry.machineCodec_eq hFits, width, hWords, hWidth, fun hFields hAux => ?_,
    Codec.ofFieldsWithAux_refused hWidth, ?_, ?_⟩
  · obtain ⟨v, hBack, hSame, hFlat⟩ := hTotal.rebuild_ok hFields hAux
    have hFlat : (r.codec d).toFields v = (Codec.expectAllOpaque aux).map fun _ => fields := hFlat
    have hHost : (∀ a ∈ aux, (∃ identity, a = .opaqueValue identity) ∨ a = .null) ↔
        ∀ a ∈ aux, a.HostData :=
      forall₂_congr fun _ _ => Value.hostData_iff.symm
    refine ⟨v, hBack, hSame, fun hAll => ?_, fun hNot => ?_⟩
    · rw [hFlat, Codec.expectAllOpaque_eq_ok (hHost.1 hAll)]
      rfl
    · obtain ⟨a, ha, -, hError⟩ :=
        Codec.expectAllOpaque_eq_error fun hAll => hNot (hHost.2 hAll)
      refine ⟨a, ha, ?_⟩
      rw [hFlat, hError]
      rfl
  · intro hAux hFields hRefuse
    rw [Codec.ofFieldsWithAux_eq hWidth hAux]
    exact hCounts.refuse hAux hFields hRefuse
  · intro hAux hFields hIgnore
    rw [Codec.ofFieldsWithAux_eq hWidth hAux, Codec.ofFieldsWithAux_eq hWidth hAux]
    exact hCounts.ignore hAux hFields hIgnore

/-- A registry with notes, of which the text is host data. -/
private def notes : Registry := ⟨[("Note", [("size", .uint32), ("text", .opaqueHost)])]⟩

private theorem regular_note : (Descriptor.composite "Note" false).Regular notes := by
  refine .composite (by decide) ?_ false
  intro m hm
  rcases hm with _ | ⟨_, _ | ⟨_, hm⟩⟩
  · exact .leaf .uint32
  · exact .leaf .opaqueHost
  · cases hm

/-- A machine with room for a single element. -/
private def small : Machine := .checking 1 (by decide) (.recursiveType "")

/-- A note takes a text that is a number as long as nobody flattens it, and ignores a second
size; a pair with a note in front does not. All this happens on a small machine as well. -/
theorem flatten_decode_note :
    notes.machineCodec small (.composite "Note" false) =
      notes.codec (.composite "Note" false) ∧
    (∃ v, (notes.codec (.composite "Note" false)).ofFieldsWithAux [.constant 5] [.ofElement 3] =
        .ok v ∧ (notes.codec (.composite "Note" false)).auxiliary v = [.ofElement 3] ∧
      ∃ a ∈ [Value.ofElement 3], (notes.codec (.composite "Note" false)).toFields v =
        .error (.shape "Opaque" .opaqueValue (.kind a.form))) ∧
    (notes.codec (.composite "Note" false)).ofFieldsWithAux [.constant 5, .constant 6]
        [.opaqueValue "text"] =
      (notes.codec (.composite "Note" false)).ofFieldsWithAux [.constant 5]
        [.opaqueValue "text"] ∧
    ∃ typeName, (notes.codec (.tuple [.composite "Note" false])).ofFieldsWithAux
        [.constant 5, .constant 6] [.opaqueValue "text"] =
      .error (.elements typeName 1 2) := by
  have hPair : (Descriptor.tuple [.composite "Note" false]).Regular notes :=
    .tuple fun d hd => by rw [List.mem_singleton.1 hd]; exact regular_note
  have hSmall : notes.Fits small (.composite "Note" false) := ⟨_, rfl⟩
  have hSmallPair : notes.Fits small (.tuple [.composite "Note" false]) := ⟨_, rfl⟩
  refine ⟨(regular_note.flatten_decode hSmall [] []).1, ?_, ?_, ?_⟩
  · obtain ⟨-, width, -, hWidth, hExact, -⟩ :=
      regular_note.flatten_decode hSmall [.constant 5] [.ofElement 3]
    cases hWidth
    obtain ⟨v, hBack, hSame, -, hMalformed⟩ := hExact rfl rfl
    refine ⟨v, hBack, hSame, hMalformed fun hAll => ?_⟩
    rcases hAll _ (List.mem_singleton_self _) with ⟨_, hOpaque⟩ | hNull
    · cases hOpaque
    · cases hNull
  · obtain ⟨-, width, -, hWidth, -, -, -, hSurplus⟩ :=
      regular_note.flatten_decode hSmall [.constant 5, .constant 6] [.opaqueValue "text"]
    cases hWidth
    exact hSurplus rfl (by decide) rfl
  · obtain ⟨-, width, -, hWidth, -, -, hRefused, -⟩ :=
      hPair.flatten_decode hSmallPair [.constant 5, .constant 6] [.opaqueValue "text"]
    cases hWidth
    exact hRefused rfl (by decide) (.inr rfl)

end TypedCircuit
