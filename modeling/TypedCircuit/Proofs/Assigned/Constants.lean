import TypedCircuit.Equality
import TypedCircuit.Proofs.Assigned.Elements
import TypedCircuit.Proofs.Codec.Regular

/-!
# Values made constant

A value of a type is made constant by way of its elements: each becomes the constant of its value,
and the value is put together again with the host data it had. What comes back has the same
elements, and nothing more is left to be made constant of it. No run takes part in that.

It needs all the values. The first element without one decides that there is no constant.

## Main results

* `Codec.toConstant_of_values` — what a value is made into.
* `Descriptor.Regular.toConstant_elements` — making a value of a regular type constant.
-/

namespace TypedCircuit

/-! ## Elements -/

theorem toConstants_of_values {fields : List Signal} {xs : List Element}
    (h : List.Forall₂ (fun s x => s.known? = some x) fields xs) :
    fields.mapM Signal.toConstant = .ok (xs.map .constant) := by
  refine mapM_eq_ok.2 (List.forall₂_map_right_iff.2 (h.imp fun s x hx => ?_))
  exact map_eq_ok.2 ⟨x, Signal.value_eq_ok.2 hx, rfl⟩

/-- A signal without a value cannot be made constant, whatever stands beside it. -/
theorem toConstants_of_missing {fields : List Signal} (h : ∃ s ∈ fields, s.known? = none) :
    fields.mapM Signal.toConstant = .error .valueUnavailable := by
  obtain ⟨s, hs, hMissing⟩ := h
  induction fields with
  | nil => cases hs
  | cons first rest ih =>
      rw [List.mapM_cons]
      unfold Signal.toConstant Signal.value
      cases hFirst : first.known? with
      | none => rfl
      | some x =>
          have hRest : s ∈ rest := by
            refine (List.mem_cons.1 hs).resolve_left fun hEq => ?_
            rw [hEq, hFirst] at hMissing
            cases hMissing
          show (rest.mapM Signal.toConstant >>= _) = _
          rw [ih hRest]
          rfl

/-! ## Values -/

namespace Codec

variable {c : Codec} {law : Part.Law} {v : Value} {fields : List Signal}

theorem toConstant_eq (hFields : c.toFields v = .ok fields) :
    c.toConstant v = (fields.mapM Signal.toConstant >>= fun constants =>
      c.ofFieldsWithAux constants (c.auxiliary v)) := by
  unfold toConstant
  rw [hFields]
  rfl

/-- A value with known elements is made into one with constants of the same values and with the
same host data. -/
theorem toConstant_of_values (h : c.part.Lawful law) (hFields : c.toFields v = .ok fields)
    {xs : List Element} (hValues : List.Forall₂ (fun s x => s.known? = some x) fields xs) :
    ∃ w, c.toConstant v = .ok w ∧ c.toFields w = .ok (xs.map .constant) ∧
      c.auxiliary w = c.auxiliary v := by
  have hLength : (xs.map Signal.constant).length = law.width.fields := by
    rw [List.length_map, ← hValues.length_eq]
    exact h.fields_length hFields
  obtain ⟨w, hBack, hSame, hAux, -⟩ :=
    h.rebuild_ok hLength (h.aux_length hFields) (h.aux_hostData hFields)
  refine ⟨w, ?_, hSame, hAux⟩
  rw [toConstant_eq hFields, toConstants_of_values hValues]
  exact hBack

end Codec

theorem known_constants (xs : List Element) :
    List.Forall₂ (fun s x => s.known? = some x) (xs.map Signal.constant) xs :=
  List.forall₂_map_left_iff.2 (List.forall₂_same.2 fun _ _ => rfl)

/--
Making a value of a regular type constant. If all its elements have values, the result consists
of constants, has the same elements and the same auxiliary data, and stays as it is when it is
made constant again; the open runs are left as they were. If some element has no value, there is
no result for that reason.
-/
theorem Descriptor.Regular.toConstant_elements {r : Registry} {d : Descriptor} (h : d.Regular r)
    {v : Value} {fields : List Signal} (hFields : (r.codec d).toFields v = .ok fields) :
    (∀ xs, (r.codec d).elements v = .ok xs →
      ∃ w, (r.codec d).toConstant v = .ok w ∧ (r.codec d).isConstant w = .ok true ∧
        (r.codec d).elements w = .ok xs ∧
        (r.codec d).auxiliary w = (r.codec d).auxiliary v ∧
        (r.codec d).toConstant w = .ok w ∧
        ∀ runs, (liftM ((r.codec d).toConstant v) : Circuit Value) runs = (.ok w, runs)) ∧
    ((∃ s ∈ fields, s.known? = none) →
      (r.codec d).toConstant v = .error .valueUnavailable) := by
  obtain ⟨width, rules, hLaw⟩ := h.lawful
  constructor
  · intro xs hxs
    obtain ⟨_, hSame, hValues⟩ := Codec.elements_eq_ok.1 hxs
    cases hFields.symm.trans hSame
    obtain ⟨w, hw, hConstants, hAux⟩ := Codec.toConstant_of_values hLaw hFields hValues
    have hConstant : (r.codec d).isConstant w = .ok true := by
      unfold Codec.isConstant
      rw [hConstants]
      refine congrArg Except.ok (List.all_eq_true.2 fun s hs => ?_)
      obtain ⟨x, -, rfl⟩ := List.mem_map.1 hs
      rfl
    -- The elements and the host data of the result are those it was put together from.
    have hAgain : (r.codec d).toConstant w = .ok w := by
      rw [Codec.toConstant_eq hConstants, toConstants_of_values (known_constants xs), hAux, ← hw,
        Codec.toConstant_eq hFields, toConstants_of_values hValues]
    refine ⟨w, hw, hConstant, Codec.elements_eq_ok.2 ⟨_, hConstants, known_constants xs⟩, hAux,
      hAgain, fun runs => ?_⟩
    rw [hw]
    rfl
  · intro hMissing
    rw [Codec.toConstant_eq hFields, toConstants_of_missing hMissing]
    rfl

/-! ## A sealed number -/

/-- A registry with numbers that carry a seal of the host. -/
private def sealedNumbers : Registry := ⟨[("Sealed", [("number", .uint32), ("seal", .opaqueHost)])]⟩

private theorem regular_sealed : (Descriptor.composite "Sealed" false).Regular sealedNumbers := by
  refine .composite (by decide) ?_ false
  intro m hm
  rcases hm with _ | ⟨_, _ | ⟨_, hm⟩⟩
  · exact .leaf .uint32
  · exact .leaf .opaqueHost
  · cases hm

private def sealedNumber (s : Signal) : Value :=
  .record (some "Sealed") [("number", .signal s), ("seal", .opaqueValue "wax")]

/-- A sealed number is made constant under its seal if its variable has a value. -/
theorem toConstant_sealed :
    (∃ w, (sealedNumbers.codec (.composite "Sealed" false)).toConstant
        (sealedNumber (.variable ⟨4, some 9⟩)) = .ok w ∧
      (sealedNumbers.codec (.composite "Sealed" false)).isConstant w = .ok true ∧
      (sealedNumbers.codec (.composite "Sealed" false)).elements w = .ok [9] ∧
      (sealedNumbers.codec (.composite "Sealed" false)).auxiliary w = [.opaqueValue "wax"]) ∧
    (sealedNumbers.codec (.composite "Sealed" false)).toConstant
      (sealedNumber (.variable ⟨4, none⟩)) = .error .valueUnavailable := by
  have hFields (s : Signal) : (sealedNumbers.codec (.composite "Sealed" false)).toFields
      (sealedNumber s) = .ok [s] := rfl
  constructor
  · obtain ⟨w, hw, hConstant, hElements, hAux, -⟩ :=
      (regular_sealed.toConstant_elements (hFields (.variable ⟨4, some 9⟩))).1 [9] rfl
    exact ⟨w, hw, hConstant, hElements, hAux⟩
  · exact (regular_sealed.toConstant_elements (hFields _)).2 ⟨_, List.mem_singleton_self _, rfl⟩

end TypedCircuit
