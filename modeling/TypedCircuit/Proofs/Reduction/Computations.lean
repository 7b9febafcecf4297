import TypedCircuit.Proofs.Passes.Wiring
import TypedCircuit.Proofs.Reduction.Values

/-!
# Passes that follow

One computation *follows* another if it succeeds wherever the other one does, and related things
stay related. Here the first computation is part of a prove pass. The second one is part of a pass
that lacks something: of a compile pass if values of variables are lost, and otherwise of a prove
pass in the same runs.

Operations on signals never fail, and assertions fail only where values are known. A pass in which
less is known therefore follows.

## Main results

* `ResultFollows.bind`, `Follows.bind` — sequences of steps.
* `combine_follows`, `Signal.assertEqual_follows`, `Signal.assertKnown_follows` — operations on
  signals.
-/

namespace TypedCircuit

/-! ## Computations that follow -/

/-- The second computation has a related result if the first one has any. -/
def ResultFollows {α β : Type} (R : α → β → Prop) (x : Except Error α) (y : Except Error β) :
    Prop := ∀ a, x = .ok a → ∃ b, y = .ok b ∧ R a b

/-- From a related state, the second computation succeeds if the first one does, with a related
result and in a related state. -/
def Follows {σ τ α β : Type} (S : σ → τ → Prop) (R : α → β → Prop)
    (x : ExceptT Error (StateM σ) α) (y : ExceptT Error (StateM τ) β) : Prop :=
  ∀ s t, S s t → ∀ a s', x s = (.ok a, s') → ∃ b t', y t = (.ok b, t') ∧ R a b ∧ S s' t'

section

variable {α β γ δ : Type} {R : α → β → Prop} {Q : γ → δ → Prop}

namespace ResultFollows

theorem ok {a : α} {b : β} (h : R a b) : ResultFollows R (.ok a) (.ok b) := by
  rintro _ ⟨⟩
  exact ⟨b, rfl, h⟩

theorem error {e : Error} {y : Except Error β} : ResultFollows R (.error e) y := nofun

theorem refl (x : Except Error α) : ResultFollows (· = ·) x x := fun a h => ⟨a, h, rfl⟩

theorem imp {R' : α → β → Prop} {x : Except Error α} {y : Except Error β}
    (h : ResultFollows R x y) (hImp : ∀ a b, R a b → R' a b) : ResultFollows R' x y := by
  intro a ha
  obtain ⟨b, hb, hab⟩ := h a ha
  exact ⟨b, hb, hImp a b hab⟩

theorem bind {x : Except Error α} {y : Except Error β} {f : α → Except Error γ}
    {g : β → Except Error δ} (h : ResultFollows R x y)
    (hNext : ∀ a b, R a b → ResultFollows Q (f a) (g b)) :
    ResultFollows Q (x >>= f) (y >>= g) := by
  intro c hc
  obtain ⟨a, ha, hc⟩ := bind_eq_ok.1 hc
  obtain ⟨b, hb, hab⟩ := h a ha
  obtain ⟨d, hd, hcd⟩ := hNext a b hab c hc
  exact ⟨d, bind_eq_ok.2 ⟨b, hb, hd⟩, hcd⟩

theorem map {x : Except Error α} {y : Except Error β} {f : α → γ} {g : β → δ}
    (h : ResultFollows R x y) (hNext : ∀ a b, R a b → Q (f a) (g b)) :
    ResultFollows Q (x.map f) (y.map g) := by
  intro c hc
  obtain ⟨a, ha, rfl⟩ := map_eq_ok.1 hc
  obtain ⟨b, rfl, hab⟩ := h a ha
  exact ⟨g b, rfl, hNext a b hab⟩

theorem mapM {P : γ → δ → Prop} {xs : List γ} {ys : List δ} {f : γ → Except Error α}
    {g : δ → Except Error β} (h : List.Forall₂ P xs ys)
    (hStep : ∀ x y, P x y → ResultFollows R (f x) (g y)) :
    ResultFollows (List.Forall₂ R) (xs.mapM f) (ys.mapM g) := by
  induction h with
  | nil => exact ok .nil
  | cons hHead _ ih =>
      rw [List.mapM_cons, List.mapM_cons]
      exact (hStep _ _ hHead).bind fun a b hab => ih.bind fun as bs hRest => ok (.cons hab hRest)

end ResultFollows

namespace Follows

variable {σ τ : Type} {S : σ → τ → Prop}

theorem pure {a : α} {b : β} (h : R a b) :
    Follows S R (Pure.pure a : ExceptT Error (StateM σ) α) (Pure.pure b) := by
  rintro s t hState _ _ ⟨⟩
  exact ⟨b, t, rfl, h, hState⟩

theorem imp {R' : α → β → Prop} {x : ExceptT Error (StateM σ) α}
    {y : ExceptT Error (StateM τ) β} (h : Follows S R x y) (hImp : ∀ a b, R a b → R' a b) :
    Follows S R' x y := by
  intro s t hState a s' ha
  obtain ⟨b, t', hb, hab, hState⟩ := h s t hState a s' ha
  exact ⟨b, t', hb, hImp a b hab, hState⟩

theorem bind {x : ExceptT Error (StateM σ) α} {y : ExceptT Error (StateM τ) β}
    {f : α → ExceptT Error (StateM σ) γ} {g : β → ExceptT Error (StateM τ) δ}
    (h : Follows S R x y) (hNext : ∀ a b, R a b → Follows S Q (f a) (g b)) :
    Follows S Q (x >>= f) (y >>= g) := by
  intro s t hState c s' hc
  obtain ⟨a, between, ha, hc⟩ := bind_state_eq_ok hc
  obtain ⟨b, between', hb, hab, hState⟩ := h s t hState a between ha
  obtain ⟨d, t', hd, hcd, hState⟩ := hNext a b hab between between' hState c s' hc
  exact ⟨d, t', (bind_state_ok hb g).trans hd, hcd, hState⟩

/-- What touches no state follows if its results do. -/
theorem lift {x : Except Error α} {y : Except Error β} (h : ResultFollows R x y) :
    Follows S R (liftM x : ExceptT Error (StateM σ) α) (liftM y) := by
  intro s t hState a s' ha
  cases x with
  | error e => cases ha
  | ok x =>
      cases ha
      obtain ⟨b, rfl, hab⟩ := h a rfl
      exact ⟨b, t, rfl, hab, hState⟩

theorem mapM {P : γ → δ → Prop} {xs : List γ} {ys : List δ}
    {f : γ → ExceptT Error (StateM σ) α} {g : δ → ExceptT Error (StateM τ) β}
    (h : List.Forall₂ P xs ys) (hStep : ∀ x y, P x y → Follows S R (f x) (g y)) :
    Follows S (List.Forall₂ R) (xs.mapM f) (ys.mapM g) := by
  induction h with
  | nil => exact pure .nil
  | cons hHead _ ih =>
      rw [List.mapM_cons, List.mapM_cons]
      exact (hStep _ _ hHead).bind fun a b hab => ih.bind fun as bs hRest =>
        pure (.cons hab hRest)

theorem forM {P : γ → δ → Prop} {xs : List γ} {ys : List δ}
    {f : γ → ExceptT Error (StateM σ) PUnit} {g : δ → ExceptT Error (StateM τ) PUnit}
    (h : List.Forall₂ P xs ys) (hStep : ∀ x y, P x y → Follows S Unrelated (f x) (g y)) :
    Follows S Unrelated (xs.forM f) (ys.forM g) := by
  induction h with
  | nil => exact pure trivial
  | @cons x y xs ys hHead _ ih =>
      show Follows S _ (f x >>= fun _ => xs.forM f) (g y >>= fun _ => ys.forM g)
      exact (hStep x y hHead).bind fun _ _ _ => ih

theorem foldlM {P : γ → δ → Prop} {xs : List γ} {ys : List δ}
    {f : α → γ → ExceptT Error (StateM σ) α} {g : β → δ → ExceptT Error (StateM τ) β}
    (h : List.Forall₂ P xs ys)
    (hStep : ∀ a b x y, R a b → P x y → Follows S R (f a x) (g b y)) :
    ∀ {a b}, R a b → Follows S R (xs.foldlM f a) (ys.foldlM g b) := by
  induction h with
  | nil => exact fun hab => pure hab
  | cons hHead _ ih =>
      intro a b hab
      rw [List.foldlM_cons, List.foldlM_cons]
      exact (hStep _ _ _ _ hab hHead).bind fun _ _ hNext => ih hNext

end Follows

end

/-! ## Runs -/

variable {loss : Loss}

/-- The open runs of a prove pass, and those of a pass with a loss: the same ones if no values are
lost, and otherwise those of a compile pass that has recorded as much. -/
inductive RunsReduce (loss : Loss) : List Run → List Run → Prop where
  | same (h : ¬ loss.values) {runs : List Run} (hMode : activeMode? runs = some .prove) :
    RunsReduce loss runs runs
  | erased (h : loss.values) {runs runs' : List Run} (hAlike : RunsAlike runs runs')
    (hMode : activeMode? runs = some .prove) (hMode' : activeMode? runs' = some .compile) :
    RunsReduce loss runs runs'

theorem RunsReduce.mode_eq {runs runs' : List Run} (h : RunsReduce loss runs runs') :
    activeMode? runs = some .prove := by
  cases h with
  | same _ hMode => exact hMode
  | erased _ _ hMode => exact hMode

/-- In both passes there is an active run. -/
theorem RunsReduce.exists_eq {runs runs' : List Run} (h : RunsReduce loss runs runs') :
    ∃ run outer run' outer', runs = run :: outer ∧ runs' = run' :: outer' := by
  cases h with
  | same _ hMode =>
      cases runs with
      | nil => cases hMode
      | cons run outer => exact ⟨run, outer, run, outer, rfl, rfl⟩
  | erased _ hAlike =>
      obtain ⟨run, run', -, outer, outer', hRuns, hRuns'⟩ := hAlike.exists_eq
      exact ⟨run, outer, run', outer', hRuns, hRuns'⟩

/-- Without a loss of values the runs are the same. -/
theorem RunsReduce.eq {runs runs' : List Run} (h : RunsReduce loss runs runs')
    (hKept : ¬ loss.values) : runs' = runs := by
  cases h with
  | same => rfl
  | erased hLost => exact absurd hLost hKept

theorem RunsReduce.erased_mode {runs runs' : List Run} (h : RunsReduce loss runs runs')
    (hLost : loss.values) : RunsAlike runs runs' ∧ activeMode? runs' = some .compile := by
  cases h with
  | same hKept => exact absurd hLost hKept
  | erased _ hAlike _ hMode' => exact ⟨hAlike, hMode'⟩

/-- Two wirings take related runs to related runs, with related results. -/
def WiringsFollow {α β : Type} (loss : Loss) (R : α → β → Prop) (x : Wiring α) (y : Wiring β) :
    Prop :=
  ∀ runs runs', RunsReduce loss runs runs' →
    R (x runs).1 (y runs').1 ∧ RunsReduce loss (x runs).2 (y runs').2

namespace WiringsFollow

variable {α β γ δ : Type} {R : α → β → Prop} {Q : γ → δ → Prop}

theorem pure {a : α} {b : β} (h : R a b) :
    WiringsFollow loss R (Pure.pure a : Wiring α) (Pure.pure b) := fun _ _ hRuns => ⟨h, hRuns⟩

theorem bind {x : Wiring α} {y : Wiring β} {f : α → Wiring γ} {g : β → Wiring δ}
    (h : WiringsFollow loss R x y) (hNext : ∀ a b, R a b → WiringsFollow loss Q (f a) (g b)) :
    WiringsFollow loss Q (x >>= f) (y >>= g) := by
  intro runs runs' hRuns
  obtain ⟨hab, hRuns⟩ := h runs runs' hRuns
  exact hNext _ _ hab _ _ hRuns

/-- A wiring never fails. -/
theorem lift {x : Wiring α} {y : Wiring β} (h : WiringsFollow loss R x y) :
    Follows (RunsReduce loss) R (liftM x : Circuit α) (liftM y) := by
  rintro runs runs' hRuns _ _ ⟨⟩
  obtain ⟨hab, hRuns⟩ := h runs runs' hRuns
  exact ⟨_, _, rfl, hab, hRuns⟩

end WiringsFollow

/-- Gates that are recorded in both passes. -/
theorem RunsReduce.recordAll {runs runs' : List Run} (h : RunsReduce loss runs runs')
    (gates : List Gate) :
    RunsReduce loss (TypedCircuit.recordAll runs gates) (TypedCircuit.recordAll runs' gates) := by
  have hKeeps (runs : List Run) :
      activeMode? (TypedCircuit.recordAll runs gates) = activeMode? runs := by
    cases runs <;> rfl
  cases h with
  | same h hMode => exact .same h ((hKeeps runs).trans hMode)
  | erased h hAlike hMode hMode' =>
      refine .erased h ?_ ((hKeeps runs).trans hMode) ((hKeeps runs').trans hMode')
      cases hAlike with
      | @intro run run' hRun outer outer' =>
          have hRecorded : Run.Alike { run with gates := run.gates ++ gates.toArray }
              { run' with gates := run'.gates ++ gates.toArray } :=
            ⟨hRun.size_eq, hRun.witnessCount_eq, congrArg (· ++ gates.toArray) hRun.gates_eq⟩
          exact .intro hRecorded outer outer'

/-! ## Operations on signals -/

section

variable {a a' b b' : Signal}

/-- In a compile pass an operation makes no value up. -/
theorem erased_combine (operation : Gate.Operation) (a b : Signal) {runs : List Run}
    (hMode : activeMode? runs = some .compile) :
    (a.combine operation b runs).1.erased = (a.combine operation b runs).1 := by
  have hDerived (value? : Option Element) :
      (deriveSignal operation a b value? runs).1.erased =
        (deriveSignal operation a b value? runs).1 := by
    cases runs with
    | nil => cases hMode
    | cons run outer =>
        have hRun : run.mode = .compile := Option.some.inj hMode
        show Signal.variable ⟨run.values.size, none⟩ =
          .variable ⟨run.values.size, Run.keptValue run.mode value?⟩
        rw [hRun]
        rfl
  rcases a with x | v
  · rcases b with y | w
    · rfl
    · exact hDerived _
  · exact hDerived _

theorem combine_follows (operation : Gate.Operation) (ha : a.Reduces loss a')
    (hb : b.Reduces loss b') :
    WiringsFollow loss (Signal.Reduces loss) (a.combine operation b)
      (a'.combine operation b') := by
  have hKeeps (a b : Signal) (runs : List Run) :
      activeMode? (a.combine operation b runs).2 = activeMode? runs :=
    KeepsMode.combine operation a b runs
  intro runs runs' hRuns
  cases hRuns with
  | same h hMode =>
      rw [ha.eq h, hb.eq h]
      exact ⟨.refl _, .same h ((hKeeps a b runs).trans hMode)⟩
  | erased h hAlike hMode hMode' =>
      obtain ⟨hSignal, hRuns⟩ := combine_agree operation ha.alike hb.alike runs runs' hAlike
      refine ⟨.of_alike hSignal (erased_combine operation a' b' hMode') h, .erased h hRuns ?_ ?_⟩
      · exact (hKeeps a b runs).trans hMode
      · exact (hKeeps a' b' runs').trans hMode'

namespace Signal

theorem add_follows (ha : a.Reduces loss a') (hb : b.Reduces loss b') :
    WiringsFollow loss (Reduces loss) (a.add b) (a'.add b') := combine_follows .add ha hb

theorem sub_follows (ha : a.Reduces loss a') (hb : b.Reduces loss b') :
    WiringsFollow loss (Reduces loss) (a.sub b) (a'.sub b') := combine_follows .sub ha hb

theorem mul_follows (ha : a.Reduces loss a') (hb : b.Reduces loss b') :
    WiringsFollow loss (Reduces loss) (a.mul b) (a'.mul b') := combine_follows .mul ha hb

theorem equals_follows (ha : a.Reduces loss a') (hb : b.Reduces loss b') :
    WiringsFollow loss (Bit.Reduces loss) (a.equals b) (a'.equals b') :=
  (combine_follows .isEqual ha hb).bind fun _ _ h => .pure h

end Signal

end

namespace Bit

variable {a a' b b' : Bit}

theorem not_follows (ha : a.Reduces loss a') :
    WiringsFollow loss (Reduces loss) a.not a'.not :=
  (Signal.sub_follows (.refl _) ha).bind fun _ _ h => .pure h

theorem and_follows (ha : a.Reduces loss a') (hb : b.Reduces loss b') :
    WiringsFollow loss (Reduces loss) (a.and b) (a'.and b') :=
  (Signal.mul_follows ha hb).bind fun _ _ h => .pure h

theorem or_follows (ha : a.Reduces loss a') (hb : b.Reduces loss b') :
    WiringsFollow loss (Reduces loss) (a.or b) (a'.or b') :=
  (not_follows ha).bind fun _ _ hA => (not_follows hb).bind fun _ _ hB =>
    (and_follows hA hB).bind fun _ _ hBoth => not_follows hBoth

theorem Reduces.alike (h : a.Reduces loss b) : a.Alike b := Signal.Reduces.alike h

theorem Reduces.isConstant_eq (h : a.Reduces loss b) : a.isConstant = b.isConstant :=
  Signal.Alike.isConstant_eq h.alike

/-- A constant bit is what it was. -/
theorem Reduces.eq_of_isConstant (h : a.Reduces loss b) (hConstant : a.isConstant = true) :
    b = a :=
  congrArg Bit.mk (Signal.Alike.eq_of_isConstant h.alike hConstant).symm

end Bit

/-! ## Assertions -/

namespace Signal

variable {a a' b b' s t : Signal}

/-- What was not refused is not refused where less is known. -/
theorem assertEqual_follows (ha : a.Reduces loss a') (hb : b.Reduces loss b') :
    Follows (RunsReduce loss) Unrelated (a.assertEqual b) (a'.assertEqual b') := by
  intro runs runs' hRuns _ after hOk
  cases hRefused : refuseUnequal a b with
  | error e =>
      rw [assertEqual_fails hRefused] at hOk
      cases hOk
  | ok =>
      rw [assertEqual_eq hRefused] at hOk
      cases hOk
      have hPasses : refuseUnequal a' b' = .ok () :=
        refuseUnequal_eq_ok.2 fun x y hx hy =>
          refuseUnequal_eq_ok.1 hRefused x y (ha.known hx) (hb.known hy)
      refine ⟨(), _, assertEqual_eq hPasses runs', trivial, ?_⟩
      rw [ha.alike.isConstant_eq, hb.alike.isConstant_eq,
        show a.wire = a'.wire from ha.alike, show b.wire = b'.wire from hb.alike]
      exact hRuns.recordAll _

theorem assertKnown_follows (h : s.Reduces loss t) (test : Element → Bool)
    (failure : Element → Error) (gate : Wire → Gate) :
    Follows (RunsReduce loss) Unrelated (s.assertKnown test failure gate)
      (t.assertKnown test failure gate) := by
  intro runs runs' hRuns _ after hOk
  have hPasses : ∀ x, s.known? = some x → test x = true := by
    intro x hKnown
    by_contra hTest
    rw [assertKnown_fails hKnown (Bool.not_eq_true _ ▸ hTest)] at hOk
    cases hOk
  rw [assertKnown_eq hPasses] at hOk
  cases hOk
  have hPasses' : ∀ x, t.known? = some x → test x = true :=
    fun x hKnown => hPasses x (h.known hKnown)
  refine ⟨(), _, assertKnown_eq hPasses' failure gate runs', trivial, ?_⟩
  rw [h.alike.isConstant_eq, show s.wire = t.wire from h.alike]
  exact hRuns.recordAll _

theorem assertBoolean_follows (h : s.Reduces loss t) :
    Follows (RunsReduce loss) Unrelated s.assertBoolean t.assertBoolean :=
  assertKnown_follows h _ .notBoolean .boolean

theorem assertRange_follows (h : s.Reduces loss t) (bits : Nat) :
    Follows (RunsReduce loss) Unrelated (s.assertRange bits) (t.assertRange bits) :=
  assertKnown_follows h _ (.outOfRange · bits) (.range · bits)

end Signal

end TypedCircuit
