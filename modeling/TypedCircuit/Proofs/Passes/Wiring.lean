import TypedCircuit.Proofs.Circuit.Inputs
import TypedCircuit.Proofs.Passes.Alike

/-!
# Arithmetic in two passes

An operation on signals folds if its operands are constants, and allocates a variable and
records a gate otherwise. Which of the two happens, the index of the variable and the gate are
decided by the wires of the operands and by how much was allocated, so alike operands leave
alike results and alike runs. An assertion looks at values as well, but only in order to fail.

## Main results

* `combine_agree` — an operation on alike signals.
* `assertKnown_agree` — an assertion about alike signals.
* `HashInput.pack_agree` — packing alike hash inputs.
-/

namespace TypedCircuit

/-- Bits of alike signals. -/
def Bit.Alike (a b : Bit) : Prop := a.signal.Alike b.signal

theorem Bit.Alike.eq_ofBool_iff {a b : Bit} (h : a.Alike b) (value : Bool) :
    a = Bit.ofBool value ↔ b = Bit.ofBool value := by
  constructor
  · rintro rfl
    exact congrArg Bit.mk (Signal.Alike.eq_of_isConstant h rfl).symm
  · rintro rfl
    exact congrArg Bit.mk (Signal.Alike.eq_of_isConstant h.symm rfl).symm

/-- Any two results. -/
def Unrelated {α β : Type} (_ : α) (_ : β) : Prop := True

/-! ## Operations -/

theorem constrain_agree {gate gate' : Gate} (h : gate = gate') :
    WiringsAgree Unrelated (constrain gate) (constrain gate') := by
  subst h
  rintro _ _ ⟨hRun, outer, outer'⟩
  exact ⟨trivial, .intro (hRun.record gate) outer outer'⟩

theorem deriveSignal_agree (operation : Gate.Operation) {a a' b b' : Signal}
    (ha : a.Alike a') (hb : b.Alike b') (value? value?' : Option Element) :
    WiringsAgree Signal.Alike (deriveSignal operation a b value?)
      (deriveSignal operation a' b' value?') := by
  rintro _ _ @⟨run, run', hRun, outer, outer'⟩
  obtain ⟨hIndex, hNext⟩ := hRun.allocate value? value?'
  have hGate : Gate.derived operation a.wire b.wire (run.allocate value?).1.index =
      .derived operation a'.wire b'.wire (run'.allocate value?').1.index := by
    rw [ha, hb, hIndex]
  refine ⟨congrArg Wire.variable hIndex, ?_⟩
  show RunsAlike (_ :: outer) (Run.record (run'.allocate value?').2
    (.derived operation a'.wire b'.wire (run'.allocate value?').1.index) :: outer')
  rw [← hGate]
  exact .intro (hNext.record _) outer outer'

/-- Alike operands make alike results. -/
theorem combine_agree (operation : Gate.Operation) {a a' b b' : Signal} (ha : a.Alike a')
    (hb : b.Alike b') :
    WiringsAgree Signal.Alike (a.combine operation b) (a'.combine operation b') := by
  rcases a with x | v
  · rcases b with y | w
    · cases ha.eq_of_isConstant rfl
      cases hb.eq_of_isConstant rfl
      exact .pure (Signal.Alike.refl _)
    · cases ha.eq_of_isConstant rfl
      rcases b' with y' | w'
      · cases hb
      · exact deriveSignal_agree operation ha hb _ _
  · rcases a' with x' | v'
    · cases ha
    · exact deriveSignal_agree operation ha hb _ _

namespace Signal

variable {a a' b b' : Signal}

theorem add_agree (ha : a.Alike a') (hb : b.Alike b') :
    WiringsAgree Alike (a.add b) (a'.add b') := combine_agree .add ha hb

theorem sub_agree (ha : a.Alike a') (hb : b.Alike b') :
    WiringsAgree Alike (a.sub b) (a'.sub b') := combine_agree .sub ha hb

theorem mul_agree (ha : a.Alike a') (hb : b.Alike b') :
    WiringsAgree Alike (a.mul b) (a'.mul b') := combine_agree .mul ha hb

theorem equals_agree (ha : a.Alike a') (hb : b.Alike b') :
    WiringsAgree Bit.Alike (a.equals b) (a'.equals b') :=
  (combine_agree .isEqual ha hb).bind fun _ _ h => .pure h

end Signal

namespace Bit

variable {a a' b b' : Bit}

theorem not_agree (ha : a.Alike a') : WiringsAgree Alike a.not a'.not :=
  (Signal.sub_agree (Signal.Alike.refl _) ha).bind fun _ _ h => .pure h

theorem and_agree (ha : a.Alike a') (hb : b.Alike b') :
    WiringsAgree Alike (a.and b) (a'.and b') :=
  (Signal.mul_agree ha hb).bind fun _ _ h => .pure h

theorem or_agree (ha : a.Alike a') (hb : b.Alike b') :
    WiringsAgree Alike (a.or b) (a'.or b') :=
  (not_agree ha).bind fun _ _ hA => (not_agree hb).bind fun _ _ hB =>
    (and_agree hA hB).bind fun _ _ hBoth => not_agree hBoth

end Bit

/-! ## Private inputs -/

theorem inputsFrom_alike (mode mode' : Mode) (index : Nat) {values values' : List (Option Element)}
    (h : values.length = values'.length) :
    SignalsAlike (inputsFrom mode index values) (inputsFrom mode' index values') := by
  induction values generalizing index values' with
  | nil =>
      rw [List.eq_nil_of_length_eq_zero h.symm]
      exact .nil
  | cons value? rest ih =>
      cases values' with
      | nil => cases h
      | cons value?' rest' => exact .cons rfl (ih (index + 1) (Nat.succ.inj h))

/-- Alike runs introduce as many private inputs alike. -/
theorem Run.Alike.introduce {run run' : Run} (h : run.Alike run')
    {values values' : List (Option Element)} (hLength : values.length = values'.length) :
    SignalsAlike (run.introduce values).1 (run'.introduce values').1 ∧
      (run.introduce values).2.Alike (run'.introduce values').2 := by
  rw [Run.introduce_eq, Run.introduce_eq]
  constructor
  · show SignalsAlike (inputsFrom run.mode run.values.size values) _
    rw [h.size_eq]
    exact inputsFrom_alike run.mode run'.mode _ hLength
  · refine ⟨?_, ?_, h.gates_eq⟩
    · show (run.values ++ _).size = (run'.values ++ _).size
      simp [h.size_eq, hLength]
    · show run.witnessCount + _ = run'.witnessCount + _
      rw [h.witnessCount_eq, hLength]

/-! ## Assertions -/

/-- A refusal, whatever it looks at, and a gate that is recorded unless the operands are
constants. -/
theorem guarded_agree {x y : Except Error Unit} {constant constant' : Bool} {gate gate' : Gate}
    (hConstant : constant = constant') (hGate : gate = gate') :
    Agree RunsAlike Unrelated
      (do liftM x; if !constant then constrain gate : Circuit Unit)
      (do liftM y; if !constant' then constrain gate' : Circuit Unit) := by
  subst hConstant
  refine (Agree.lift (R := Unrelated) fun _ _ _ _ => trivial).bind fun _ _ _ => ?_
  cases constant with
  | true => exact .pure trivial
  | false => exact (constrain_agree hGate).lift

namespace Signal

/-- The refusal of an assertion of equality. -/
def refuseUnequal (a b : Signal) : Except Error Unit :=
  match a.known?, b.known? with
  | some x, some y => if x ≠ y then .error (.unequal x y) else .ok ()
  | _, _ => .ok ()

/-- The refusal of an assertion about one signal. -/
def refuseKnown (s : Signal) (test : Element → Bool) (failure : Element → Error) :
    Except Error Unit :=
  match s.known? with
  | some x => if !test x then .error (failure x) else .ok ()
  | none => .ok ()

/-- An assertion of equality is a refusal, and a gate that is recorded unless the operands are
constants. -/
theorem assertEqual_eq_guarded (a b : Signal) : a.assertEqual b = (do
    liftM (refuseUnequal a b)
    if !(a.isConstant && b.isConstant) then constrain (.assertEqual a.wire b.wire)) := by
  unfold assertEqual refuseUnequal
  rcases a.known? with _ | x <;> rcases b.known? with _ | y <;> try rfl
  by_cases h : x = y
  · simp [h]; rfl
  · simp [h]; rfl

theorem refuseUnequal_eq_ok {a b : Signal} :
    refuseUnequal a b = .ok () ↔
      ∀ x y, a.known? = some x → b.known? = some y → x = y := by
  unfold refuseUnequal
  rcases a.known? with _ | x <;> rcases b.known? with _ | y
  · exact ⟨fun _ => nofun, fun _ => rfl⟩
  · exact ⟨fun _ => nofun, fun _ => rfl⟩
  · exact ⟨fun _ _ _ _ => nofun, fun _ => rfl⟩
  · show (if x ≠ y then _ else _) = _ ↔ _
    by_cases hEqual : x = y
    · subst hEqual
      exact ⟨fun _ z w hz hw => (Option.some.inj hz).symm.trans (Option.some.inj hw),
        fun _ => if_neg (not_not_intro rfl)⟩
    · rw [if_pos hEqual]
      exact ⟨nofun, fun h => absurd (h x y rfl rfl) hEqual⟩

/-- An assertion of equality that is not refused records its gate. -/
theorem assertEqual_eq {a b : Signal} (h : refuseUnequal a b = .ok ()) (runs : List Run) :
    a.assertEqual b runs = (.ok (), recordAll runs
      (if a.isConstant && b.isConstant then [] else [.assertEqual a.wire b.wire])) := by
  rw [assertEqual_eq_guarded, h]
  show (if !(a.isConstant && b.isConstant) then constrain _ else pure () : Circuit Unit) runs = _
  by_cases hConstant : (a.isConstant && b.isConstant) = true
  · rw [hConstant, if_pos rfl, recordAll_nil]
    rfl
  · rw [Bool.not_eq_true] at hConstant
    rw [hConstant, if_neg Bool.false_ne_true]
    cases runs <;> rfl

theorem assertEqual_fails {a b : Signal} {e : Error} (h : refuseUnequal a b = .error e)
    (runs : List Run) : a.assertEqual b runs = (.error e, runs) := by
  rw [assertEqual_eq_guarded, h]
  rfl

theorem assertEqual_agree {a a' b b' : Signal} (ha : a.Alike a') (hb : b.Alike b') :
    Agree RunsAlike Unrelated (a.assertEqual b) (a'.assertEqual b') := by
  rw [assertEqual_eq_guarded, assertEqual_eq_guarded]
  refine guarded_agree ?_ ?_
  · rw [ha.isConstant_eq, hb.isConstant_eq]
  · rw [ha, hb]

theorem assertKnown_agree {s t : Signal} (h : s.Alike t) (test : Element → Bool)
    (failure : Element → Error) (gate : Wire → Gate) :
    Agree RunsAlike Unrelated (s.assertKnown test failure gate)
      (t.assertKnown test failure gate) := by
  have hForm (s : Signal) : s.assertKnown test failure gate = (do
      liftM (refuseKnown s test failure)
      if !s.isConstant then constrain (gate s.wire)) := by
    unfold assertKnown refuseKnown
    rcases s.known? with _ | x
    · rfl
    · cases hTest : test x <;> simp only [hTest] <;> rfl
  rw [hForm, hForm]
  refine guarded_agree h.isConstant_eq ?_
  rw [h]

theorem assertBoolean_agree {s t : Signal} (h : s.Alike t) :
    Agree RunsAlike Unrelated s.assertBoolean t.assertBoolean :=
  assertKnown_agree h _ .notBoolean .boolean

theorem assertRange_agree {s t : Signal} (h : s.Alike t) (bits : Nat) :
    Agree RunsAlike Unrelated (s.assertRange bits) (t.assertRange bits) :=
  assertKnown_agree h _ (.outOfRange · bits) (.range · bits)

end Signal

/-! ## The mode of a pass -/

/-- An operation leaves the mode of the active run as it is, whether it succeeds or not. -/
def KeepsMode {α : Type} (c : Circuit α) : Prop :=
  ∀ runs, activeMode? (c runs).2 = activeMode? runs

namespace KeepsMode

variable {α β : Type}

theorem pure (a : α) : KeepsMode (Pure.pure a : Circuit α) := fun _ => rfl

theorem lift (x : Except Error α) : KeepsMode (liftM x : Circuit α) := by
  cases x <;> exact fun _ => rfl

theorem bind {c : Circuit α} {f : α → Circuit β} (h : KeepsMode c)
    (hNext : ∀ a, KeepsMode (f a)) : KeepsMode (c >>= f) := by
  intro runs
  show activeMode? (ExceptT.bindCont f (c runs).1 (c runs).2).2 = _
  rw [← h runs]
  rcases c runs with ⟨_ | a, after⟩
  · rfl
  · exact hNext a after

theorem forM {γ : Type} {f : γ → Circuit PUnit} {xs : List γ} (h : ∀ x ∈ xs, KeepsMode (f x)) :
    KeepsMode (xs.forM f) := by
  induction xs with
  | nil => exact pure _
  | cons x xs ih =>
      show KeepsMode (f x >>= fun _ => xs.forM f)
      exact (h x List.mem_cons_self).bind fun _ => ih fun y hy => h y (List.mem_cons_of_mem x hy)

theorem deriveSignal (operation : Gate.Operation) (a b : Signal) (value? : Option Element) :
    KeepsMode (TypedCircuit.deriveSignal operation a b value? : Circuit Signal) := by
  rintro (_ | ⟨run, outer⟩)
  · cases value? <;> rfl
  · rfl

theorem combine (operation : Gate.Operation) (a b : Signal) :
    KeepsMode (a.combine operation b : Circuit Signal) := by
  rcases a with x | v
  · rcases b with y | w
    · exact fun _ => rfl
    · exact deriveSignal operation _ _ _
  · exact deriveSignal operation _ _ _

theorem assertKnown (s : Signal) (test : Element → Bool) (failure : Element → Error)
    (gate : Wire → Gate) : KeepsMode (s.assertKnown test failure gate) := by
  intro runs
  by_cases h : ∀ x, s.known? = some x → test x = true
  · rw [Signal.assertKnown_eq h]
    cases runs <;> rfl
  · push Not at h
    obtain ⟨x, hKnown, hTest⟩ := h
    rw [Signal.assertKnown_fails hKnown (Bool.eq_false_iff.2 hTest)]

end KeepsMode

end TypedCircuit
