import TypedCircuit.Proofs.Passes.Operations
import TypedCircuit.Proofs.Runs.Confinement

/-!
# Operations on values of one run

The operations that any type has are sequences of operations on signals. Their operands are the
elements of values, constants, and what the operations before made of these, so if the values
belong to a run they are a history of it. A selection may be refused at several places, and then
the history ends there.

## Main results

* `Codec.equal_reaches`, `Codec.assertEqual_reaches` — comparing values of a type.
* `Codec.select_reaches`, `Codec.switch_reaches` — selecting among values of a type.
* `HashInput.pack_reaches` — packing a hash input.
-/

namespace TypedCircuit

variable {level : Nat} {runs : List Run}

/-- Pairs of signals that belong to the innermost run. -/
abbrev PairsConfined (level : Nat) (runs : List Run) (pairs : List (Signal × Signal)) : Prop :=
  ∀ pair ∈ pairs, Confined level runs pair.1 ∧ Confined level runs pair.2

theorem pairsConfined_zip {xs ys : List Signal} (hX : SignalsConfined level runs xs)
    (hY : SignalsConfined level runs ys) : PairsConfined level runs (xs.zip ys) := by
  rintro ⟨x, y⟩ hPair
  obtain ⟨hx, hy⟩ := List.of_mem_zip hPair
  exact ⟨hX x hx, hY y hy⟩

theorem PairsConfined.mono {runs' : List Run} (h : RunsReach level runs runs')
    {pairs : List (Signal × Signal)} (hPairs : PairsConfined level runs pairs) :
    PairsConfined level runs' pairs := fun pair hPair =>
  ⟨h.confined (hPairs pair hPair).1, h.confined (hPairs pair hPair).2⟩

namespace Codec

variable {c : Codec} {a b : Value}

/-! ## Comparing -/

theorem equalOnto_leads {acc : Bit} {pairs : List (Signal × Signal)}
    (hAcc : acc.Confined level runs) (h : PairsConfined level runs pairs) :
    WiringLeads level (Bit.Confined level) (equalOnto acc pairs) runs := by
  induction pairs generalizing acc runs with
  | nil => exact .pure hAcc
  | cons pair rest ih =>
      obtain ⟨hHead, hRest⟩ := List.forall_mem_cons.1 h
      refine (Signal.equals_leads hHead.1 hHead.2).bind fun same after hSame hSameBit => ?_
      refine (Bit.and_leads (hAcc.mono hSame) hSameBit).bind fun both after' hBoth hBothBit => ?_
      exact ih hBothBit (PairsConfined.mono (hSame.trans hBoth) hRest)

theorem equal_reaches (h : c.Confining) (ha : a.Confined level runs)
    (hb : b.Confined level runs) : RunsReach level runs (c.equal a b runs).2 := by
  refine reaches_lift_bind fun xs hX => reaches_lift_bind fun ys hY => ?_
  have hPairs := pairsConfined_zip (toFields_confined h ha hX) (toFields_confined h hb hY)
  exact (equalOnto_leads (confined_constant 1) hPairs).1

theorem assertEqual_reaches (h : c.Confining) (ha : a.Confined level runs)
    (hb : b.Confined level runs) : RunsReach level runs (c.assertEqual a b runs).2 := by
  refine reaches_lift_bind fun xs hX => reaches_lift_bind fun ys hY => ?_
  have hPairs := pairsConfined_zip (toFields_confined h ha hX) (toFields_confined h hb hY)
  refine Leads.forM fun pair hPair runs' hReach => ?_
  exact Signal.assertEqual_reaches (hReach.confined (hPairs pair hPair).1)
    (hReach.confined (hPairs pair hPair).2)

/-! ## Two candidates -/

theorem blend_leads {bit x y : Signal} (hBit : Confined level runs bit)
    (hx : Confined level runs x) (hy : Confined level runs y) :
    WiringLeads level (Confined level) (blend bit x y) runs := by
  refine (combine_leads .sub hx hy).bind fun difference after hFirst hDifference => ?_
  refine (combine_leads .mul (hFirst.confined hBit) hDifference).bind
    fun scaled after' hNext hScaled => ?_
  exact combine_leads .add ((hFirst.trans hNext).confined hy) hScaled

theorem select_reaches (h : c.Confining) {condition : Bit}
    (hCondition : condition.Confined level runs) (ha : a.Confined level runs)
    (hb : b.Confined level runs) : RunsReach level runs (c.select condition a b runs).2 := by
  refine reaches_lift_bind fun xs hX => reaches_lift_bind fun ys hY => ?_
  have hPairs := pairsConfined_zip (toFields_confined h ha hX) (toFields_confined h hb hY)
  split
  · refine reaches_lift_bind fun bit _ => ?_
    cases bit <;> exact .refl runs
  · refine (Leads.bind (P := SignalsConfined level)
      (Leads.mapM (fun _ _ _ hReach hs => hReach.confined hs) ?_)
      fun fields after _ _ => ?_ : Leads _ Anything _ _).1
    · rintro ⟨x, y⟩ hPair runs' hReach
      exact (blend_leads (hCondition.mono hReach) (hReach.confined (hPairs _ hPair).1)
        (hReach.confined (hPairs _ hPair).2)).lift
    · exact .of_reaches (reaches_lift_bind fun aux _ => reaches_lift _)

/-! ## Any number of candidates -/

theorem addWeighted_leads {bit : Bit} {sum element : Signal} (hBit : bit.Confined level runs)
    (hSum : Confined level runs sum) (hElement : Confined level runs element) :
    WiringLeads level (Confined level) (addWeighted bit sum element) runs := by
  unfold addWeighted
  split
  · exact combine_leads .add hSum hElement
  · exact (combine_leads .mul hElement hBit).bind fun _ _ hReach hTerm =>
      combine_leads .add (hReach.confined hSum) hTerm

theorem addCandidate_leads (h : c.Confining) {sums : List Signal} {bit : Bit}
    (hSums : SignalsConfined level runs sums) (hBit : bit.Confined level runs)
    (ha : a.Confined level runs) :
    Leads (RunsReach level) (SignalsConfined level) (c.addCandidate sums bit a) runs := by
  refine Leads.lift_bind fun fields hFields => ?_
  split
  · exact .pure hSums
  · have hPairs := pairsConfined_zip hSums (toFields_confined h ha hFields)
    refine Leads.mapM (fun _ _ _ hReach hs => hReach.confined hs) ?_
    rintro ⟨sum, element⟩ hPair runs' hReach
    exact (addWeighted_leads (hBit.mono hReach) (hReach.confined (hPairs _ hPair).1)
      (hReach.confined (hPairs _ hPair).2)).lift

theorem weightedSum_reaches (h : c.Confining) {mask : List Bit} {candidates : List Value}
    (hMask : ∀ bit ∈ mask, bit.Confined level runs)
    (hCandidates : ValuesConfined level runs candidates) :
    RunsReach level runs (c.weightedSum mask candidates runs).2 := by
  refine reaches_lift_bind fun width _ => ?_
  refine (Leads.bind (P := SignalsConfined level) (Leads.foldlM ?_ ?_)
    fun sums after _ _ => ?_ : Leads _ Anything _ _).1
  · rintro ⟨bit, candidate⟩ hMem sums after hReach hSums
    obtain ⟨hBit, hCandidate⟩ := List.of_mem_zip hMem
    exact addCandidate_leads h hSums ((hMask bit hBit).mono hReach)
      ((hCandidates candidate hCandidate).mono hReach)
  · exact fun s hs => List.eq_of_mem_replicate hs ▸ confined_constant 0
  · exact .of_reaches (reaches_lift_bind fun aux _ => reaches_lift _)

theorem switch_reaches (h : c.Confining) {mask : List Bit} {candidates : List Value}
    (hMask : ∀ bit ∈ mask, bit.Confined level runs)
    (hCandidates : ValuesConfined level runs candidates) :
    RunsReach level runs (c.switch mask candidates runs).2 := by
  rcases c.switch_eq mask candidates runs with ⟨e, hRefused⟩ | hSum
  · rw [hRefused]
    exact .refl runs
  · rw [hSum]
    exact weightedSum_reaches h hMask hCandidates

end Codec

/-! ## Packing -/

namespace HashInput

/-- Whether a hash input belongs to the innermost run, if that is of the level that is followed. -/
structure Confined (level : Nat) (runs : List Run) (input : HashInput) : Prop where
  fields : SignalsConfined level runs input.fields
  packed : ∀ entry ∈ input.packed, TypedCircuit.Confined level runs entry.1

/-- Whether the element of a group belongs to the innermost run. -/
def Group.Confined (level : Nat) (runs : List Run) (group : Group) : Prop :=
  TypedCircuit.Confined level runs group.element

theorem shiftIn_leads {group : Group} {s : Signal} (hGroup : group.Confined level runs)
    (hs : TypedCircuit.Confined level runs s) (bits : Nat) :
    WiringLeads level (Group.Confined level) (group.shiftIn s bits) runs :=
  (combine_leads .mul hGroup (confined_constant _)).bind fun _ _ hReach hShifted =>
    (combine_leads .add hShifted (hReach.confined hs)).bind fun _ _ _ hElement => .pure hElement

theorem packStep_leads (done : List Signal) {group : Group} {s : Signal}
    (hGroup : group.Confined level runs) (hs : TypedCircuit.Confined level runs s) (bits : Nat) :
    WiringLeads level (fun runs out => out.2.Confined level runs) (packStep done group s bits)
      runs := by
  have hEmpty : Group.empty.Confined level runs := confined_constant 0
  unfold packStep
  split
  · exact (shiftIn_leads hEmpty hs bits).bind fun _ _ _ hNext => .pure hNext
  · exact (shiftIn_leads hGroup hs bits).bind fun _ _ _ hNext => .pure hNext

theorem packFrom_reaches {packed : List (Signal × Nat)} (done : List Signal) {group : Group}
    (hGroup : group.Confined level runs)
    (h : ∀ entry ∈ packed, TypedCircuit.Confined level runs entry.1) :
    RunsReach level runs (packFrom done group packed runs).2 := by
  induction packed generalizing done group runs with
  | nil => exact .refl runs
  | cons entry rest ih =>
      obtain ⟨hHead, hRest⟩ := List.forall_mem_cons.1 h
      obtain ⟨hReach, hNext⟩ := packStep_leads done hGroup hHead entry.2
      exact hReach.trans (ih _ hNext fun entry hEntry => hReach.confined (hRest entry hEntry))

theorem pack_reaches {input : HashInput} (h : input.Confined level runs) :
    RunsReach level runs (input.pack runs).2 :=
  packFrom_reaches input.fields (confined_constant 0) h.packed

end HashInput

end TypedCircuit
