import TypedCircuit.Proofs.Assigned.Multiplexers

/-!
# Selecting between two

There are three ways to select between two values of a type by a bit. A constant bit returns one
of the two as it is. A variable leads from the elements of the second one to those of the first
by a difference that is weighted with the bit. A multiplexer over the bit and its complement adds
up both, each weighted with its bit. All three read the same: what they return has the elements
and the host data of the value that is selected.

Not in every pass are there values to be read. A compile pass gives its variables none, so there
a result is selected without showing it; but no element of it ever has a value that is not of
the value that is selected.

## Main results

* `Codec.select_reads`, `Codec.switchNot_reads` — what the elements of both selections are read
  as.
* `Descriptor.Regular.selections_agree` — the ways to select between two values agree.
-/

namespace TypedCircuit

namespace Codec

variable {R : Signal → Element → Prop} {Open : List Run → Prop} {c : Codec} {law : Part.Law}

/-! ## By a difference -/

theorem blend_reads (h : Signal.Reads R Open) {bit a b : Signal} {t : Bool} {x y : Element}
    (hBit : R bit (Element.ofBool t)) (ha : R a x) (hb : R b y) {runs : List Run}
    (hOpen : Open runs) :
    R (blend bit a b runs).1 (if t then x else y) ∧ Open (blend bit a b runs).2 := by
  rw [← Element.blend_ofBool]
  obtain ⟨hDifference, hFirst⟩ := h.combine hOpen ha hb .sub
  obtain ⟨hScaled, hSecond⟩ := h.combine hFirst hBit hDifference .mul
  exact h.combine hSecond hb hScaled .add

/-- Pairs of which the same side is taken everywhere. -/
theorem map_zip_ite {α : Type} {xs ys : List α} (h : xs.length = ys.length) (t : Bool) :
    ((xs.zip ys).map fun p => if t then p.1 else p.2) = if t then xs else ys := by
  cases t with
  | true => exact List.map_fst_zip (Nat.le_of_eq h)
  | false => exact List.map_snd_zip (Nat.le_of_eq h.symm)

variable {yes no : Value} {xs ys : List Element} {bit : Bit} {t : Bool}

theorem sharedAuxiliary_two (hAux : c.auxiliary yes = c.auxiliary no) :
    c.sharedAuxiliary [yes, no] = .ok (c.auxiliary yes) := by
  rw [sharedAuxiliary_cons, List.map_singleton, List.all_cons, ← hAux, beq_self_eq_true]
  rfl

/-- A constant bit returns one of the values as it is. -/
theorem select_constant {fields fields' : List Signal} (hYes : c.toFields yes = .ok fields)
    (hNo : c.toFields no = .ok fields') (t : Bool) :
    c.select (.ofBool t) yes no = pure (if t then yes else no) := by
  unfold select
  rw [hYes, hNo]
  cases t <;> rfl

/-- A selection returns a value with the elements and the host data of the one selected. -/
theorem select_reads (h : c.part.Lawful law) (hReads : Signal.Reads R Open)
    (hBit : R bit.signal (Element.ofBool t)) (hYes : c.ReadAs R yes xs) (hNo : c.ReadAs R no ys)
    (hAux : c.auxiliary yes = c.auxiliary no) :
    Yields Open (fun v => c.auxiliary v = c.auxiliary yes ∧ c.ReadAs R v (if t then xs else ys))
      (c.select bit yes no) := by
  obtain ⟨fields, hFields, hX⟩ := id hYes
  obtain ⟨fields', hFields', hY⟩ := id hNo
  obtain ⟨x | v⟩ := bit
  · obtain rfl : x = Element.ofBool t := hReads.exact hBit
    have hSelect : c.select ⟨.constant (Element.ofBool t)⟩ yes no = _ :=
      select_constant hFields hFields' t
    rw [hSelect]
    cases t with
    | true => exact .pure ⟨rfl, hYes⟩
    | false => exact .pure ⟨hAux.symm, hNo⟩
  · have hLength : xs.length = ys.length := (hYes.length_eq h).trans (hNo.length_eq h).symm
    have hBlended : Yields Open (fun out => List.Forall₂ R out (if t then xs else ys))
        ((fields.zip fields').mapM fun pair => blend (.variable v) pair.1 pair.2) := by
      rw [← map_zip_ite hLength]
      refine Yields.mapM (List.forall₂_map_right_iff.2 ?_)
      refine (forall₂_zip_zip hX hY).imp ?_
      rintro ⟨a, b⟩ ⟨x, y⟩ ⟨ha, hb⟩
      exact .wiring fun runs hOpen => blend_reads hReads hBit ha hb hOpen
    refine .result_bind hFields (.result_bind hFields' (hBlended.bind fun out hOut => ?_))
    have hCounted : out.length = law.width.fields := by
      rw [hOut.length_eq]
      cases t with
      | true => exact hYes.length_eq h
      | false => exact hNo.length_eq h
    have hFlat : ∀ w ∈ [yes, no], ∃ fields, c.toFields w = .ok fields :=
      List.forall_mem_cons.2 ⟨⟨_, hFields⟩, List.forall_mem_singleton.2 ⟨_, hFields'⟩⟩
    exact (assemble_yields h hFlat (sharedAuxiliary_two hAux) hCounted).imp
      fun w hw => ⟨hw.2, out, hw.1, hOut⟩

/-! ## By the complement -/

/-- The multiplexer over a bit and its complement. -/
def switchNot (c : Codec) (bit : Bit) (yes no : Value) : Circuit Value := do
  let complement ← bit.not
  c.switch [bit, complement] [yes, no]

theorem not_reads (h : Signal.Reads R Open) (hBit : R bit.signal (Element.ofBool t))
    {runs : List Run} (hOpen : Open runs) :
    R (bit.not runs).1.signal (Element.ofBool !t) ∧ Open (bit.not runs).2 := by
  rw [← Element.one_sub_ofBool]
  exact h.combine hOpen (h.constant 1) hBit .sub

/-- The signal of a bit that is a constant. -/
theorem constant_of_value (hValue : bit.value = .ok t) (hConstant : bit.isConstant = true) :
    bit.signal = .constant (Element.ofBool t) := by
  obtain ⟨x | v⟩ := bit
  · exact congrArg Signal.constant (Option.some.inj (Bit.value_eq_ok.1 hValue))
  · cases hConstant

/-- The complement has a value if that of the bit is kept. -/
theorem not_value (hValue : bit.value = .ok t) {runs : List Run}
    (hKept : bit.isConstant = true ∨ haveValues runs = true) :
    (bit.not runs).1.value = .ok !t := by
  apply Bit.value_eq_ok.2
  rcases hKept with hConstant | hKept
  · have hNot : (bit.not runs).1.signal = .constant (Element.ofBool !t) :=
      (not_reads Signal.reads_constant (constant_of_value hValue hConstant) trivial).1
    exact congrArg Signal.known? hNot
  · exact (not_reads Signal.reads_known (Bit.value_eq_ok.1 hValue) hKept).1

/-- A bit and its complement are counted where they have values, and then one of them is set. -/
theorem countable_not (hValue : bit.value = .ok t) (runs : List Run) :
    Countable [bit, (bit.not runs).1] [yes, no] (bit.not runs).2 := by
  have hMode : haveValues (bit.not runs).2 = haveValues runs :=
    congrArg (· != some Mode.compile) (KeepsMode.combine .sub Signal.one bit.signal runs)
  refine ⟨rfl, fun hLooked => atMostOne_eq_ok.2 ⟨[t, !t], ?_, ?_⟩⟩
  · have hKept : bit.isConstant = true ∨ haveValues runs = true := by
      rw [hMode] at hLooked
      refine hLooked.imp_left fun hConstant => ?_
      rw [List.all_cons, Bool.and_eq_true] at hConstant
      exact hConstant.1
    exact mapM_eq_ok.2 (.cons hValue (.cons (not_value hValue hKept) .nil))
  · cases t <;> decide

/-- Of a bit and its complement one is set. -/
theorem sumRows_not {count : Nat} (hX : xs.length = count) (hY : ys.length = count) (t : Bool) :
    sumRows (List.replicate count 0) [t, !t] [xs, ys] = if t then xs else ys := by
  cases t with
  | true => exact sumRows_of_one (i := 0) (by decide) rfl rfl hX
  | false => exact sumRows_of_one (i := 1) (by decide) rfl rfl hY

/-- The multiplexer over a bit and its complement returns what a selection returns. -/
theorem switchNot_reads (h : c.part.Lawful law) (hReads : Signal.Reads R Open)
    (hBit : R bit.signal (Element.ofBool t)) (hYes : c.ReadAs R yes xs) (hNo : c.ReadAs R no ys)
    (hAux : c.auxiliary yes = c.auxiliary no) (hValue : bit.value = .ok t) :
    Yields Open (fun v => c.auxiliary v = c.auxiliary yes ∧ c.ReadAs R v (if t then xs else ys))
      (c.switchNot bit yes no) := by
  intro runs hOpen
  obtain ⟨hNot, hAfter⟩ := not_reads hReads hBit hOpen
  rw [← sumRows_not (hYes.length_eq h) (hNo.length_eq h)]
  exact switch_reads h hReads hAfter (countable_not hValue runs) (.cons hBit (.cons hNot .nil))
    (.cons hYes (.cons hNo .nil)) (sharedAuxiliary_two hAux)

/-! ## Readings of values -/

/-- A value of which all elements are constants is read as them. -/
theorem readAs_constant {v : Value} (h : c.elements v = .ok xs)
    (hConstant : c.isConstant v = .ok true) : c.ReadAs (fun s x => s = .constant x) v xs := by
  obtain ⟨fields, hFields, hRead⟩ := elements_eq_ok.1 h
  refine ⟨fields, hFields, constants_of_values hRead (List.all_eq_true.1 ?_)⟩
  unfold isConstant at hConstant
  rw [hFields] at hConstant
  exact Except.ok.inj hConstant

/-- No element of a value has a value other than these. -/
abbrev Shows (c : Codec) (v : Value) (xs : List Element) : Prop :=
  c.ReadAs (fun s x => ∀ z, s.known? = some z → z = x) v xs

theorem shows_of_elements {v : Value} (h : c.elements v = .ok xs) : c.Shows v xs :=
  (elements_eq_ok.1 h).imp fun _ _ hx _ hz => Option.some.inj (hz.symm.trans hx)

end Codec

/--
Both ways to select between two values of a regular type with the same auxiliary data, by a bit
that is zero or one, succeed in every pass, and what they return carries that auxiliary data.
Outside of circuits and in a prove pass it has the elements of the value that is selected. In a
compile pass, where variables are given no values, it has them if nothing but constants is
selected from, and a selection by a constant bit has them in any case; otherwise none of its
elements has a value other than that of the value that is selected.
-/
theorem Descriptor.Regular.selections_agree {r : Registry} {d : Descriptor} (h : d.Regular r)
    {yes no : Value} {xs ys : List Element} {bit : Bit} {t : Bool}
    (hYes : (r.codec d).elements yes = .ok xs) (hNo : (r.codec d).elements no = .ok ys)
    (hAux : (r.codec d).auxiliary yes = (r.codec d).auxiliary no) (hBit : bit.value = .ok t)
    (runs : List Run) :
    ∃ v w after after', (r.codec d).select bit yes no runs = (.ok v, after) ∧
      (r.codec d).switchNot bit yes no runs = (.ok w, after') ∧
      (r.codec d).auxiliary v = (r.codec d).auxiliary yes ∧
      (r.codec d).auxiliary w = (r.codec d).auxiliary yes ∧
      (haveValues runs = true →
        (r.codec d).elements v = .ok (if t then xs else ys) ∧
          (r.codec d).elements w = .ok (if t then xs else ys)) ∧
      (bit.isConstant = true → (r.codec d).elements v = .ok (if t then xs else ys)) ∧
      (bit.isConstant = true → (r.codec d).isConstant yes = .ok true →
        (r.codec d).isConstant no = .ok true →
          (r.codec d).elements w = .ok (if t then xs else ys)) ∧
      (r.codec d).Shows v (if t then xs else ys) ∧
      (r.codec d).Shows w (if t then xs else ys) := by
  obtain ⟨width, rules, hLaw⟩ := h.lawful
  have hTruth := Bit.value_eq_ok.1 hBit
  have hShown : ∀ z, bit.signal.known? = some z → z = Element.ofBool t :=
    fun z hz => Option.some.inj (hz.symm.trans hTruth)
  obtain ⟨v, after, hSelect, ⟨hv, hShows⟩, -⟩ := Codec.select_reads hLaw Signal.reads_sound hShown
    (Codec.shows_of_elements hYes) (Codec.shows_of_elements hNo) hAux runs trivial
  obtain ⟨w, after', hSwitch, ⟨hw, hShows'⟩, -⟩ := Codec.switchNot_reads hLaw Signal.reads_sound
    hShown (Codec.shows_of_elements hYes) (Codec.shows_of_elements hNo) hAux hBit runs trivial
  have hX := Codec.elements_eq_ok.1 hYes
  have hY := Codec.elements_eq_ok.1 hNo
  refine ⟨v, w, after, after', hSelect, hSwitch, hv, hw, fun hKept => ⟨?_, ?_⟩,
    fun hConstant => ?_, fun hConstant hYesConstant hNoConstant => ?_, hShows, hShows'⟩
  · have hSelects := Codec.select_reads hLaw Signal.reads_known hTruth hX hY hAux
    exact Codec.elements_eq_ok.2 (hSelects.of_ok hKept hSelect).2
  · have hSwitches := Codec.switchNot_reads hLaw Signal.reads_known hTruth hX hY hAux hBit
    exact Codec.elements_eq_ok.2 (hSwitches.of_ok hKept hSwitch).2
  · obtain ⟨fields, hFields, -⟩ := hX
    obtain ⟨fields', hFields', -⟩ := hY
    obtain rfl : bit = .ofBool t := congrArg Bit.mk (Codec.constant_of_value hBit hConstant)
    rw [Codec.select_constant hFields hFields'] at hSelect
    cases hSelect
    cases t with
    | true => exact hYes
    | false => exact hNo
  · have hSwitches := Codec.switchNot_reads hLaw Signal.reads_constant
      (Codec.constant_of_value hBit hConstant) (Codec.readAs_constant hYes hYesConstant)
      (Codec.readAs_constant hNo hNoConstant) hAux hBit
    refine Codec.elements_eq_ok.2 ((hSwitches.of_ok trivial hSwitch).2.imp ?_)
    rintro _ _ rfl
    rfl

/-! ## Two pairs -/

/-- A prove pass with two private inputs. -/
private def assigning : List Run := [⟨.prove, #[some 0, some 4], 2, #[]⟩]

private def pairOf (a b : Signal) : Value := .array [.signal a, .signal b]

/-- A variable that is zero selects the second of two pairs, either way. -/
theorem select_second_pair :
    ∃ v w after after', ((⟨[]⟩ : Registry).codec (.array .field 2)).select
        ⟨.variable ⟨0, some 0⟩⟩ (pairOf (.constant 1) (.variable ⟨1, some 4⟩))
        (pairOf (.constant 2) (.constant 3)) assigning = (.ok v, after) ∧
      ((⟨[]⟩ : Registry).codec (.array .field 2)).switchNot ⟨.variable ⟨0, some 0⟩⟩
        (pairOf (.constant 1) (.variable ⟨1, some 4⟩)) (pairOf (.constant 2) (.constant 3))
        assigning = (.ok w, after') ∧
      ((⟨[]⟩ : Registry).codec (.array .field 2)).elements v = .ok [2, 3] ∧
      ((⟨[]⟩ : Registry).codec (.array .field 2)).elements w = .ok [2, 3] := by
  have hRegular : (Descriptor.array .field 2).Regular ⟨[]⟩ := .array (.leaf .field) 2
  obtain ⟨v, w, after, after', hSelect, hSwitch, -, -, hKept, -⟩ :=
    @Descriptor.Regular.selections_agree _ _ hRegular
      (pairOf (.constant 1) (.variable ⟨1, some 4⟩)) (pairOf (.constant 2) (.constant 3)) [1, 4]
      [2, 3] ⟨.variable ⟨0, some 0⟩⟩ false rfl rfl rfl rfl assigning
  exact ⟨v, w, after, after', hSelect, hSwitch, (hKept rfl).1, (hKept rfl).2⟩

/-- A compile pass, opened in a prove pass with one private input. -/
private def measuring : List Run := [.start .compile, ⟨.prove, #[some 1], 1, #[]⟩]

/-- It is not so that a selection by a bit with a value always has the elements of the value that
is selected: in a compile pass within a prove pass, a variable of the prove pass that is one
selects between five and seven, and the result has no value. -/
theorem select_without_value :
    ¬ ∀ (r : Registry) (d : Descriptor), d.Regular r → ∀ (yes no : Value) (xs ys : List Element)
      (bit : Bit) (t : Bool) (runs : List Run), (r.codec d).elements yes = .ok xs →
      (r.codec d).elements no = .ok ys →
      (r.codec d).auxiliary yes = (r.codec d).auxiliary no → bit.value = .ok t →
      ∃ v after, (r.codec d).select bit yes no runs = (.ok v, after) ∧
        (r.codec d).elements v = .ok (if t then xs else ys) := by
  intro hAll
  obtain ⟨v, after, hSelect, hElements⟩ := hAll ⟨[]⟩ .field (.leaf .field) (.ofElement 5)
    (.ofElement 7) [5] [7] ⟨.variable ⟨0, some 1⟩⟩ true measuring rfl rfl rfl rfl
  cases hSelect
  cases hElements

end TypedCircuit
