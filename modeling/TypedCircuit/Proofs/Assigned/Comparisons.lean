import TypedCircuit.Proofs.Arguments
import TypedCircuit.Proofs.Assigned.Identity
import TypedCircuit.Proofs.Passes.Operations

/-!
# Three ways to compare

Two values of a type can be compared inside a circuit, which gives a bit, they can be asserted to
be equal, which may fail, and they can be compared outside, part by part. The first two walk over
the elements; the third one does not know the type. Where the elements have values, all three come
to the same answer, namely whether those are the same.

Host data takes no part in the first two, so the third one is compared for types that have none.
It also looks at bits as truth values, so their elements have to be zero or one.

## Main results

* `Codec.equal_reads`, `Codec.assertEqual_eq_ok` — comparing and asserting, by the elements.
* `Descriptor.Regular.sameValue_decides` — comparing part by part, by the elements.
* `Descriptor.Regular.comparisons_agree` — the three agree.
-/

namespace TypedCircuit

namespace Codec

variable {R : Signal → Element → Prop} {Open : List Run → Prop} {c : Codec} {law : Part.Law}
  {a b : Value} {fields fields' : List Signal} {xs ys : List Element}

/-! ## Inside a circuit -/

theorem equalOnto_reads (h : Signal.Tracks R Open) (hX : List.Forall₂ R fields xs)
    (hY : List.Forall₂ R fields' ys) (hLength : xs.length = ys.length) {acc : Bit} {t : Bool}
    (hAcc : R acc.signal (Element.ofBool t)) {runs : List Run} (hOpen : Open runs) :
    R (equalOnto acc (fields.zip fields') runs).1.signal
        (Element.ofBool (t && decide (xs = ys))) ∧
      Open (equalOnto acc (fields.zip fields') runs).2 := by
  induction hX generalizing fields' ys acc t runs with
  | nil =>
      obtain rfl := List.eq_nil_of_length_eq_zero hLength.symm
      rw [decide_eq_true rfl, Bool.and_true]
      exact ⟨hAcc, hOpen⟩
  | @cons s x fields xs hHead _ ih =>
      cases hY with
      | nil => cases hLength
      | @cons s' y _ ys hHead' hRest' =>
          obtain ⟨hSame, hFirst⟩ := h.combine hOpen hHead hHead' .isEqual
          obtain ⟨hBoth, hSecond⟩ := h.combine hFirst hAcc hSame .mul
          have hAnd : Gate.Operation.apply .mul (Element.ofBool t)
              (Gate.Operation.apply .isEqual x y) = Element.ofBool (t && decide (x = y)) :=
            Element.ofBool_mul_ofBool t _
          rw [hAnd] at hBoth
          have hDecide : decide (x :: xs = y :: ys) = (decide (x = y) && decide (xs = ys)) := by
            simp only [List.cons.injEq, Bool.decide_and]
          rw [hDecide, ← Bool.and_assoc]
          exact ih hRest' (Nat.succ.inj hLength) hBoth hSecond

/-- Comparing gives a bit that is read as whether the elements are the same. -/
theorem equal_reads (h : Signal.Tracks R Open) (ha : c.ReadAs R a xs) (hb : c.ReadAs R b ys)
    (hLength : xs.length = ys.length) :
    Yields Open (fun bit => R bit.signal (Element.ofBool (decide (xs = ys)))) (c.equal a b) := by
  obtain ⟨fields, hFields, hX⟩ := ha
  obtain ⟨fields', hFields', hY⟩ := hb
  refine .result_bind hFields (.result_bind hFields' (.wiring fun runs hOpen => ?_))
  have hOne : R (Bit.ofBool true).signal (Element.ofBool true) := h.constant _
  obtain ⟨hBit, hAfter⟩ := equalOnto_reads h hX hY hLength hOne hOpen
  rw [Bool.true_and] at hBit
  exact ⟨hBit, hAfter⟩

end Codec

/-! ## By assertions -/

/-- An assertion on two signals of known values succeeds exactly if those are the same. -/
theorem Signal.assertEqual_eq_ok {s s' : Signal} {x y : Element} (hs : s.known? = some x)
    (hs' : s'.known? = some y) (runs : List Run) :
    (∃ after, s.assertEqual s' runs = (.ok (), after)) ↔ x = y := by
  constructor
  · rintro ⟨after, hOk⟩
    cases hRefuse : refuseUnequal s s' with
    | error e => rw [assertEqual_fails hRefuse] at hOk; cases hOk
    | ok => exact refuseUnequal_eq_ok.1 hRefuse x y hs hs'
  · rintro rfl
    refine ⟨_, assertEqual_eq (refuseUnequal_eq_ok.2 fun y z hy hz => ?_) runs⟩
    exact Option.some.inj ((hy.symm.trans hs).trans (hs'.symm.trans hz))

theorem assertEach_eq_ok {fields fields' : List Signal} {xs ys : List Element}
    (hX : List.Forall₂ (fun s x => s.known? = some x) fields xs)
    (hY : List.Forall₂ (fun s y => s.known? = some y) fields' ys)
    (hLength : xs.length = ys.length) (runs : List Run) :
    (∃ after, ((fields.zip fields').forM fun (s, s') => s.assertEqual s') runs =
      (.ok (), after)) ↔ xs = ys := by
  induction hX generalizing fields' ys runs with
  | nil =>
      obtain rfl := List.eq_nil_of_length_eq_zero hLength.symm
      exact iff_of_true ⟨runs, rfl⟩ rfl
  | @cons s x fields xs hHead _ ih =>
      cases hY with
      | nil => cases hLength
      | @cons s' y fields' ys hHead' hRest' =>
          have hFirst := Signal.assertEqual_eq_ok hHead hHead' runs
          have hRest := ih hRest' (Nat.succ.inj hLength)
          rw [List.cons.injEq]
          show (∃ after, (s.assertEqual s' >>= fun _ => (fields.zip fields').forM fun (s, s') =>
            s.assertEqual s') runs = (.ok (), after)) ↔ _
          constructor
          · rintro ⟨after, hOk⟩
            obtain ⟨_, between, hOne, hOthers⟩ := bind_state_eq_ok hOk
            exact ⟨hFirst.1 ⟨between, hOne⟩, (hRest between).1 ⟨after, hOthers⟩⟩
          · rintro ⟨hEq, hEqs⟩
            obtain ⟨between, hOne⟩ := hFirst.2 hEq
            obtain ⟨after, hOthers⟩ := (hRest between).2 hEqs
            exact ⟨after, (bind_state_ok hOne _).trans hOthers⟩

/-- Asserting that two values are equal succeeds exactly if their elements are the same. -/
theorem Codec.assertEqual_eq_ok {c : Codec} {a b : Value} {xs ys : List Element}
    (ha : c.elements a = .ok xs) (hb : c.elements b = .ok ys) (hLength : xs.length = ys.length)
    (runs : List Run) : (∃ after, c.assertEqual a b runs = (.ok (), after)) ↔ xs = ys := by
  obtain ⟨fields, hFields, hX⟩ := elements_eq_ok.1 ha
  obtain ⟨fields', hFields', hY⟩ := elements_eq_ok.1 hb
  unfold assertEqual
  rw [hFields, hFields']
  exact assertEach_eq_ok hX hY hLength runs

/-! ## Outside of circuits -/

namespace Descriptor.Regular

variable {r : Registry} {d : Descriptor}

/-- What a type without host data rebuilds has elements of its own, whatever it ignored. -/
theorem rebuilt_of_ofFields (h : d.Regular r) {count : Nat}
    (hWidth : (r.codec d).width () = .ok ⟨count, 0⟩) {fields : List Signal} {v : Value}
    (hBack : (r.codec d).ofFields fields = .ok v) :
    ∃ own, own.length = count ∧ (r.codec d).part.rebuild own [] = .ok v ∧
      (r.codec d).toFields v = .ok own := by
  rw [h.ofFields_eq hWidth] at hBack
  have hCounts := h.counts hWidth
  have hOwn : ∃ own : List Signal, own.length = count ∧ (r.codec d).rebuild own [] = .ok v := by
    rcases Nat.lt_trichotomy fields.length count with hLess | hEqual | hMore
    · obtain ⟨name, hRefused⟩ :=
        @Codec.Counts.refuse _ _ _ hCounts fields [] rfl (Nat.ne_of_lt hLess) (.inl hLess)
      cases hBack.symm.trans hRefused
    · exact ⟨fields, hEqual, hBack⟩
    · cases hSurplus : d.ignoresSurplus with
      | false =>
          rw [hSurplus] at hCounts
          obtain ⟨name, hRefused⟩ :=
            @Codec.Counts.refuse _ _ _ hCounts fields [] rfl (Nat.ne_of_gt hMore) (.inr rfl)
          cases hBack.symm.trans hRefused
      | true =>
          refine ⟨fields.take count, ?_, ?_⟩
          · rw [List.length_take]; omega
          · rw [← hBack]
            exact (@Codec.Counts.ignore _ _ _ hCounts fields [] rfl hMore hSurplus).symm
  obtain ⟨own, hLength, hOwn⟩ := hOwn
  obtain ⟨width, rules, hLaw⟩ := h.lawful
  obtain rfl : width = ⟨count, 0⟩ := Except.ok.inj (hLaw.width_eq.symm.trans hWidth)
  have hPart : (r.codec d).part.rebuild own [] = .ok v :=
    (Codec.ofFieldsWithAux_eq hWidth rfl).trans hOwn
  obtain ⟨w, hSame, hFlat, -⟩ := @Part.Lawful.rebuild_ok _ _ hLaw own [] hLength rfl nofun
  cases hPart.symm.trans hSame
  exact ⟨own, hLength, hPart, hFlat⟩

/-- Comparing two values part by part that were rebuilt from elements alone tells whether their
elements have the same values. -/
theorem sameValue_decides (h : d.Regular r) {width : Width}
    (hWidth : (r.codec d).width () = .ok width) (hNone : width.aux = 0) {a b : Value}
    {xs ys : List Element} (ha : (r.codec d).elements a = .ok xs)
    (hb : (r.codec d).elements b = .ok ys) {fields fields' : List Signal}
    (hBack : (r.codec d).ofFields fields = .ok a) (hBack' : (r.codec d).ofFields fields' = .ok b)
    (hTruthful : a.Truthful) (hTruthful' : b.Truthful) :
    Decides (a.sameValue b) (xs = ys) := by
  obtain ⟨count, aux⟩ := width
  obtain rfl : aux = 0 := hNone
  obtain ⟨w, hCompares⟩ := h.compares
  obtain rfl : w = ⟨count, 0⟩ := Except.ok.inj (hCompares.width_eq.symm.trans hWidth)
  obtain ⟨own, hLength, hOwn, hFlat⟩ := h.rebuilt_of_ofFields hWidth hBack
  obtain ⟨own', hLength', hOwn', hFlat'⟩ := h.rebuilt_of_ofFields hWidth hBack'
  obtain ⟨_, hSame, hX⟩ := Codec.elements_eq_ok.1 ha
  obtain ⟨_, hSame', hY⟩ := Codec.elements_eq_ok.1 hb
  cases hFlat.symm.trans hSame
  cases hFlat'.symm.trans hSame'
  have hAssigned : Part.Assigned ⟨count, 0⟩ own [] xs :=
    ⟨hLength, rfl, List.forall_mem_nil _, hX⟩
  have hAssigned' : Part.Assigned ⟨count, 0⟩ own' [] ys :=
    ⟨hLength', rfl, List.forall_mem_nil _, hY⟩
  exact (hCompares.decides hAssigned hAssigned' hOwn hOwn' hTruthful hTruthful').congr
    (and_iff_left rfl)

/--
Three ways to compare two values of a regular type whose elements have values, outside of circuits
or in a prove pass. Comparing gives a bit that is true if the elements have the same values and
false otherwise; asserting that they are equal succeeds exactly if they have; and if the type has
no host data, and both were rebuilt from elements that are zero or one where they are booleans,
then comparing them part by part gives the same answer.
-/
theorem comparisons_agree (h : d.Regular r) {a b : Value} {xs ys : List Element}
    (ha : (r.codec d).elements a = .ok xs) (hb : (r.codec d).elements b = .ok ys)
    {runs : List Run} (hKept : haveValues runs = true) :
    (∃ bit after, (r.codec d).equal a b runs = (.ok bit, after) ∧
      bit.value = .ok (decide (xs = ys))) ∧
    ((∃ after, (r.codec d).assertEqual a b runs = (.ok (), after)) ↔ xs = ys) ∧
    (∀ width, (r.codec d).width () = .ok width → width.aux = 0 → ∀ fields fields',
      (r.codec d).ofFields fields = .ok a → (r.codec d).ofFields fields' = .ok b →
      (∀ bit ∈ a.bits, ∃ t, bit.value = .ok t) → (∀ bit ∈ b.bits, ∃ t, bit.value = .ok t) →
        a.sameValue b = .ok (decide (xs = ys))) := by
  obtain ⟨width, rules, hLaw⟩ := h.lawful
  have hX := Codec.elements_eq_ok.1 ha
  have hY := Codec.elements_eq_ok.1 hb
  have hLength : xs.length = ys.length := (hX.length_eq hLaw).trans (hY.length_eq hLaw).symm
  refine ⟨?_, Codec.assertEqual_eq_ok ha hb hLength runs, ?_⟩
  · obtain ⟨bit, after, hRun, hBit, -⟩ :=
      Codec.equal_reads Signal.tracks_known hX hY hLength runs hKept
    exact ⟨bit, after, hRun, Bit.value_eq_ok.2 hBit⟩
  · intro _ hWidth hNone fields fields' hBack hBack' hTruthful hTruthful'
    exact (h.sameValue_decides hWidth hNone ha hb hBack hBack' hTruthful hTruthful').eq_decide

end Descriptor.Regular

/-! ## Lamps -/

/-- A registry with lamps that are on or off. -/
private def lamps : Registry := ⟨[("Lamp", [("on", .boolean), ("level", .uint32)])]⟩

private theorem regular_lamp : (Descriptor.composite "Lamp" true).Regular lamps := by
  refine .composite (by decide) ?_ true
  intro m hm
  rcases hm with _ | ⟨_, _ | ⟨_, hm⟩⟩
  · exact .leaf .boolean
  · exact .leaf .uint32
  · cases hm

private def lamp (on level : Signal) : Value :=
  .record (some "Lamp") [("level", .signal level), ("on", .bit ⟨on⟩)]

/-- A prove pass with a switch that is on and a level of seven. -/
private def lighting : List Run := [⟨.prove, #[some 1, some 7], 2, #[]⟩]

/-- Two lamps that share no signal are the same in all three ways. One of them was made of more
elements than a lamp has. -/
theorem compare_lamps :
    (∃ bit after, (lamps.codec (.composite "Lamp" true)).equal
        (lamp (.variable ⟨0, some 1⟩) (.constant 7)) (lamp (.constant 1) (.variable ⟨1, some 7⟩))
        lighting = (.ok bit, after) ∧ bit.value = .ok true) ∧
      (∃ after, (lamps.codec (.composite "Lamp" true)).assertEqual
        (lamp (.variable ⟨0, some 1⟩) (.constant 7)) (lamp (.constant 1) (.variable ⟨1, some 7⟩))
        lighting = (.ok (), after)) ∧
      (lamps.codec (.composite "Lamp" true)).ofFields
          [.constant 1, .variable ⟨1, some 7⟩, .constant 5] =
        .ok (lamp (.constant 1) (.variable ⟨1, some 7⟩)) ∧
      (lamp (.variable ⟨0, some 1⟩) (.constant 7)).sameValue
        (lamp (.constant 1) (.variable ⟨1, some 7⟩)) = .ok true := by
  have hTruthful (on level : Signal) (hOn : on.known? = some 1) :
      ∀ bit ∈ (lamp on level).bits, ∃ t, bit.value = .ok t := by
    intro bit hBit
    rw [List.mem_singleton.1 hBit]
    exact ⟨true, Bit.value_eq_ok.2 hOn⟩
  obtain ⟨hEqual, hAssert, hSame⟩ := @Descriptor.Regular.comparisons_agree _ _ regular_lamp
    (lamp (.variable ⟨0, some 1⟩) (.constant 7)) (lamp (.constant 1) (.variable ⟨1, some 7⟩))
    [1, 7] [1, 7] rfl rfl lighting rfl
  refine ⟨hEqual, hAssert.2 rfl, rfl, ?_⟩
  exact hSame ⟨2, 0⟩ rfl rfl [.variable ⟨0, some 1⟩, .constant 7]
    [.constant 1, .variable ⟨1, some 7⟩, .constant 5] rfl rfl (hTruthful _ _ rfl)
    (hTruthful _ _ rfl)

end TypedCircuit
