import TypedCircuit.Equality
import TypedCircuit.Proofs.Passes.Codecs
import TypedCircuit.Selection

/-!
# Operations on values of a type in two passes

The operations that any type has go through its elements, and do to them what signals and bits
can do. A selection looks further: at whether its bits are constants, at constant bits, at how
many bits are set, and at whether auxiliary data differ. The first two are the same for alike
operands; the others only make it fail.

## Main results

* `Codec.equal_agree`, `Codec.assertEqual_agree` — comparing values of a type.
* `Codec.select_agree`, `Codec.switch_agree` — selecting among values of a type.
* `HashInput.pack_agree` — packing hash inputs.
-/

namespace TypedCircuit

namespace Codec

variable {c : Codec} {a a' b b' : Value}

/-! ## Comparing -/

theorem equalOnto_agree {acc acc' : Bit} {pairs pairs' : List (Signal × Signal)}
    (hAcc : acc.Alike acc')
    (h : List.Forall₂ (fun x y => x.1.Alike y.1 ∧ x.2.Alike y.2) pairs pairs') :
    WiringsAgree Bit.Alike (equalOnto acc pairs) (equalOnto acc' pairs') := by
  induction h generalizing acc acc' with
  | nil => exact .pure hAcc
  | cons hHead _ ih =>
      exact (Signal.equals_agree hHead.1 hHead.2).bind fun _ _ hSame =>
        (Bit.and_agree hAcc hSame).bind fun _ _ hBoth => ih hBoth

theorem equal_agree (h : c.Uniform) (ha : a.Alike a') (hb : b.Alike b') :
    Agree RunsAlike Bit.Alike (c.equal a b) (c.equal a' b') :=
  (Agree.lift (toFields_agree h ha)).bind fun _ _ hX =>
    (Agree.lift (toFields_agree h hb)).bind fun _ _ hY =>
      (equalOnto_agree (Signal.Alike.refl _) (forall₂_zip_zip hX hY)).lift

theorem assertEqual_agree (h : c.Uniform) (ha : a.Alike a') (hb : b.Alike b') :
    Agree RunsAlike Unrelated (c.assertEqual a b) (c.assertEqual a' b') :=
  (Agree.lift (toFields_agree h ha)).bind fun _ _ hX =>
    (Agree.lift (toFields_agree h hb)).bind fun _ _ hY =>
      Agree.forM (forall₂_zip_zip hX hY) fun _ _ hPair =>
        Signal.assertEqual_agree hPair.1 hPair.2

/-! ## Two candidates -/

theorem sharedAuxiliary_agree (h : c.Uniform) {candidates candidates' : List Value}
    (hCandidates : ValuesAlike candidates candidates') :
    ResultsAgree ValuesAlike (c.sharedAuxiliary candidates) (c.sharedAuxiliary candidates') := by
  cases hCandidates with
  | nil =>
      refine (ResultsAgree.refl (c.width ())).map ?_
      rintro width _ rfl
      exact List.forall₂_same.2 fun v hv => List.eq_of_mem_replicate hv ▸ .primitive .null
  | @cons v w rest rest' hHead _ =>
      show ResultsAgree _
        (if (rest.map c.auxiliary).all (· == c.auxiliary v) then .ok (c.auxiliary v) else _)
        (if (rest'.map c.auxiliary).all (· == c.auxiliary w) then .ok (c.auxiliary w) else _)
      split
      · split
        · exact .ok (h.auxiliary hHead)
        · exact .error_right
      · exact .error_left

theorem blend_agree {bit bit' x x' y y' : Signal} (hBit : bit.Alike bit') (hx : x.Alike x')
    (hy : y.Alike y') : WiringsAgree Signal.Alike (blend bit x y) (blend bit' x' y') :=
  (Signal.sub_agree hx hy).bind fun _ _ hDifference =>
    (Signal.mul_agree hBit hDifference).bind fun _ _ hScaled => Signal.add_agree hy hScaled

theorem select_agree (h : c.Uniform) {condition condition' : Bit}
    (hCondition : condition.Alike condition') (ha : a.Alike a') (hb : b.Alike b') :
    Agree RunsAlike Value.Alike (c.select condition a b) (c.select condition' a' b') := by
  refine (Agree.lift (toFields_agree h ha)).bind fun xs xs' hX =>
    (Agree.lift (toFields_agree h hb)).bind fun ys ys' hY => ?_
  have hConstant : condition.isConstant = condition'.isConstant := hCondition.isConstant_eq
  cases hCase : condition.isConstant with
  | true =>
      have hSame : condition = condition' :=
        congrArg Bit.mk (hCondition.eq_of_isConstant hCase)
      rw [← hSame, hCase]
      refine (Agree.lift (ResultsAgree.refl condition.value)).bind ?_
      rintro bit _ rfl
      cases bit with
      | true => exact .pure ha
      | false => exact .pure hb
  | false =>
      rw [← hConstant, hCase]
      refine Agree.bind (Agree.mapM (forall₂_zip_zip hX hY) ?_) fun _ _ hFields =>
        (Agree.lift (sharedAuxiliary_agree h (.cons ha (.cons hb .nil)))).bind fun _ _ hAux =>
          Agree.lift (ofFieldsWithAux_agree h hFields fun _ => hAux)
      rintro ⟨x, y⟩ ⟨x', y'⟩ ⟨hx, hy⟩
      exact (blend_agree hCondition hx hy).lift

/-! ## Any number of candidates -/

/-- The sum of candidates, each weighted with its bit. -/
def weightedSum (c : Codec) (mask : List Bit) (candidates : List Value) : Circuit Value := do
  let width ← c.width ()
  let sums ← (mask.zip candidates).foldlM
    (fun sums (bit, candidate) => c.addCandidate sums bit candidate)
    (List.replicate width.fields Signal.zero)
  let aux ← c.sharedAuxiliary candidates
  c.ofFieldsWithAux sums aux

/-- A selection fails at once or is the weighted sum. -/
theorem switch_eq (c : Codec) (mask : List Bit) (candidates : List Value) (runs : List Run) :
    (∃ e, c.switch mask candidates runs = (.error e, runs)) ∨
      c.switch mask candidates runs = c.weightedSum mask candidates runs := by
  have hCounted (x : Except Error Unit) :
      (∃ e, (liftM x >>= fun _ => c.weightedSum mask candidates : Circuit Value) runs =
          (.error e, runs)) ∨
        (liftM x >>= fun _ => c.weightedSum mask candidates : Circuit Value) runs =
          c.weightedSum mask candidates runs := by
    cases x with
    | error e => exact .inl ⟨e, rfl⟩
    | ok => exact .inr rfl
  unfold switch
  by_cases hLength : mask.length ≠ candidates.length
  · rw [if_pos hLength]
    exact .inl ⟨_, rfl⟩
  · rw [if_neg hLength]
    dsimp only
    split
    · exact hCounted _
    · show (∃ e, (if haveValues runs then _ else _ : Circuit Value) runs = _) ∨
        (if haveValues runs then _ else _ : Circuit Value) runs = _
      split
      · exact hCounted _
      · exact .inr rfl

theorem switch_eq_ok {mask : List Bit} {candidates : List Value} {runs runs' : List Run}
    {v : Value} (h : c.switch mask candidates runs = (.ok v, runs')) :
    c.weightedSum mask candidates runs = (.ok v, runs') := by
  rcases c.switch_eq mask candidates runs with ⟨e, hError⟩ | hSum
  · rw [hError] at h
    cases h
  · rwa [← hSum]

theorem addWeighted_agree {bit bit' : Bit} {sum sum' element element' : Signal}
    (hBit : bit.Alike bit') (hSum : sum.Alike sum') (hElement : element.Alike element') :
    WiringsAgree Signal.Alike (addWeighted bit sum element)
      (addWeighted bit' sum' element') := by
  unfold addWeighted
  rw [if_congr (hBit.eq_ofBool_iff true) rfl rfl]
  split
  · exact Signal.add_agree hSum hElement
  · exact (Signal.mul_agree hElement hBit).bind fun _ _ hTerm => Signal.add_agree hSum hTerm

theorem addCandidate_agree (h : c.Uniform) {sums sums' : List Signal} {bit bit' : Bit}
    (hSums : SignalsAlike sums sums') (hBit : bit.Alike bit') (ha : a.Alike a') :
    Agree RunsAlike SignalsAlike (c.addCandidate sums bit a) (c.addCandidate sums' bit' a') := by
  refine (Agree.lift (toFields_agree h ha)).bind fun fields fields' hFields => ?_
  rw [if_congr (hBit.eq_ofBool_iff false) rfl rfl]
  split
  · exact .pure hSums
  · refine Agree.mapM (forall₂_zip_zip hSums hFields) ?_
    rintro ⟨sum, element⟩ ⟨sum', element'⟩ ⟨hSum, hElement⟩
    exact (addWeighted_agree hBit hSum hElement).lift

theorem weightedSum_agree (h : c.Uniform) {mask mask' : List Bit}
    {candidates candidates' : List Value} (hMask : List.Forall₂ Bit.Alike mask mask')
    (hCandidates : ValuesAlike candidates candidates') :
    Agree RunsAlike Value.Alike (c.weightedSum mask candidates)
      (c.weightedSum mask' candidates') := by
  refine (Agree.lift (ResultsAgree.refl (c.width ()))).bind ?_
  rintro width _ rfl
  have hZeros : SignalsAlike (List.replicate width.fields Signal.zero)
      (List.replicate width.fields Signal.zero) :=
    List.forall₂_same.2 fun s _ => Signal.Alike.refl s
  refine Agree.bind (Agree.foldlM (forall₂_zip_zip hMask hCandidates) ?_ hZeros)
    fun _ _ hSums => (Agree.lift (sharedAuxiliary_agree h hCandidates)).bind fun _ _ hAux =>
      Agree.lift (ofFieldsWithAux_agree h hSums fun _ => hAux)
  rintro sums sums' ⟨bit, candidate⟩ ⟨bit', candidate'⟩ hSums ⟨hBit, hCandidate⟩
  exact addCandidate_agree h hSums hBit hCandidate

theorem switch_agree (h : c.Uniform) {mask mask' : List Bit}
    {candidates candidates' : List Value} (hMask : List.Forall₂ Bit.Alike mask mask')
    (hCandidates : ValuesAlike candidates candidates') :
    Agree RunsAlike Value.Alike (c.switch mask candidates) (c.switch mask' candidates') :=
  fun _ _ hRuns _ _ _ _ hv hw =>
    weightedSum_agree h hMask hCandidates _ _ hRuns _ _ _ _ (switch_eq_ok hv) (switch_eq_ok hw)

end Codec

/-! ## Packing -/

namespace HashInput

/-- Two groups of one size with alike elements. -/
def Group.Alike (group group' : Group) : Prop :=
  group.element.Alike group'.element ∧ group.bits = group'.bits

theorem shiftIn_agree {group group' : Group} {s t : Signal} (hGroup : group.Alike group')
    (h : s.Alike t) (bits : Nat) :
    WiringsAgree Group.Alike (group.shiftIn s bits) (group'.shiftIn t bits) :=
  (Signal.mul_agree hGroup.1 (Signal.Alike.refl _)).bind fun _ _ hShifted =>
    (Signal.add_agree hShifted h).bind fun _ _ hElement =>
      .pure ⟨hElement, congrArg (· + bits) hGroup.2⟩

theorem packStep_agree {done done' : List Signal} {group group' : Group} {s t : Signal}
    (hDone : SignalsAlike done done') (hGroup : group.Alike group') (h : s.Alike t)
    (bits : Nat) :
    WiringsAgree (fun x y => SignalsAlike x.1 y.1 ∧ x.2.Alike y.2) (packStep done group s bits)
      (packStep done' group' t bits) := by
  unfold packStep
  rw [hGroup.2]
  split
  · exact (shiftIn_agree ⟨Signal.Alike.refl _, rfl⟩ h bits).bind fun _ _ hNext =>
      .pure ⟨List.rel_append hDone (.cons hGroup.1 .nil), hNext⟩
  · exact (shiftIn_agree hGroup h bits).bind fun _ _ hNext => .pure ⟨hDone, hNext⟩

theorem packFrom_agree {packed packed' : List (Signal × Nat)}
    (h : List.Forall₂ (fun x y : Signal × Nat => x.1.Alike y.1 ∧ x.2 = y.2) packed packed') :
    ∀ {done done' : List Signal} {group group' : Group}, SignalsAlike done done' →
      group.Alike group' → WiringsAgree SignalsAlike (packFrom done group packed)
        (packFrom done' group' packed') := by
  induction h with
  | nil =>
      intro done done' group group' hDone hGroup
      unfold packFrom
      rw [hGroup.2]
      split
      · exact .pure (List.rel_append hDone (.cons hGroup.1 .nil))
      · exact .pure hDone
  | @cons x y _ _ hHead _ ih =>
      intro done done' group group' hDone hGroup
      obtain ⟨s, bits⟩ := x
      obtain ⟨hs, rfl⟩ : s.Alike y.1 ∧ bits = y.2 := hHead
      exact (packStep_agree hDone hGroup hs y.2).bind fun _ _ hNext => ih hNext.1 hNext.2

theorem pack_agree {input input' : HashInput} (h : input.Alike input') :
    WiringsAgree SignalsAlike input.pack input'.pack :=
  packFrom_agree h.packed h.fields ⟨Signal.Alike.refl _, rfl⟩

end HashInput

end TypedCircuit
