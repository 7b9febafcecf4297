import TypedCircuit.Proofs.Passes.Wiring
import TypedCircuit.Proofs.Runs.History

/-!
# Operations that leave a history

An operation on open runs *traces* its steps if it leaves a history, whether it succeeds or
fails. What is known of its result is said of the runs that it leaves: a signal that an operation
makes of signals of a run belongs to the run after the operation, not before.

The notion is closed under sequences of operations. So an operation that is a sequence of
operations on signals leaves a history if each of these does, and only these are steps.

## Main results

* `Leads.bind`, `Leads.mapM`, `Leads.foldlM` — sequences of operations.
* `combine_leads`, `Signal.assertEqual_reaches`, `Rule.assert_reaches` — operations on signals.
-/

namespace TypedCircuit

/-! ## Sequences -/

section

variable {σ α β γ : Type} {R : σ → σ → Prop} {P : σ → α → Prop} {Q : σ → β → Prop} {s : σ}

/-- From a state, an operation leads to a related one, and if it succeeds, to a result that has a
property there. -/
def Leads (R : σ → σ → Prop) (Q : σ → β → Prop) (x : ExceptT Error (StateM σ) β) (s : σ) : Prop :=
  R s (x s).2 ∧ ∀ b, (x s).1 = .ok b → Q (x s).2 b

/-- Any result. -/
def Anything (_ : σ) (_ : β) : Prop := True

namespace Leads

theorem of_reaches {x : ExceptT Error (StateM σ) β} (h : R s (x s).2) : Leads R Anything x s :=
  ⟨h, fun _ _ => trivial⟩

variable [IsPreorder σ R]

theorem pure {b : β} (h : Q s b) : Leads R Q (Pure.pure b) s :=
  ⟨Std.Refl.refl s, fun _ hb => by cases hb; exact h⟩

theorem lift {x : Except Error β} (h : ∀ b, x = .ok b → Q s b) : Leads R Q (liftM x) s := by
  cases x with
  | error e => exact ⟨Std.Refl.refl s, fun _ hb => by cases hb⟩
  | ok b => exact ⟨Std.Refl.refl s, fun _ hb => by cases hb; exact h b rfl⟩

theorem bind {x : ExceptT Error (StateM σ) α} {f : α → ExceptT Error (StateM σ) β}
    (h : Leads R P x s) (hNext : ∀ a t, R s t → P t a → Leads R Q (f a) t) :
    Leads R Q (x >>= f) s := by
  obtain ⟨hReach, hResult⟩ := h
  have hBind : (x >>= f) s = ExceptT.bindCont f (x s).1 (x s).2 := rfl
  unfold Leads
  rw [hBind]
  rcases hx : x s with ⟨_ | a, t⟩
  · rw [hx] at hReach
    exact ⟨hReach, fun _ hb => by cases hb⟩
  · rw [hx] at hReach hResult
    obtain ⟨hReach', hResult'⟩ := hNext a t hReach (hResult a rfl)
    exact ⟨IsTrans.trans _ _ _ hReach hReach', hResult'⟩

/-- What only looks something up leaves the state as it is. -/
theorem lift_bind {x : Except Error α} {f : α → ExceptT Error (StateM σ) β}
    (h : ∀ a, x = .ok a → Leads R Q (f a) s) : Leads R Q (liftM x >>= f) s := by
  cases x with
  | error e => exact ⟨Std.Refl.refl s, fun _ hb => by cases hb⟩
  | ok a => exact h a rfl

theorem forM {f : γ → ExceptT Error (StateM σ) PUnit} {xs : List γ}
    (h : ∀ x ∈ xs, ∀ t, R s t → R t (f x t).2) : R s (xs.forM f s).2 := by
  suffices hAll : Leads R Anything (xs.forM f) s from hAll.1
  induction xs generalizing s with
  | nil => exact pure trivial
  | cons x xs ih =>
      show Leads R Anything (f x >>= fun _ => xs.forM f) s
      refine bind (of_reaches (h x List.mem_cons_self s (Std.Refl.refl s))) fun _ t ht _ => ih ?_
      exact fun y hy u hu => h y (List.mem_cons_of_mem x hy) u (IsTrans.trans _ _ _ ht hu)

/-- A walk over a list, of which the results keep their property. -/
theorem mapM {f : γ → ExceptT Error (StateM σ) β} {xs : List γ}
    (hKeeps : ∀ t u b, R t u → Q t b → Q u b)
    (h : ∀ x ∈ xs, ∀ t, R s t → Leads R Q (f x) t) :
    Leads R (fun t ys => ∀ y ∈ ys, Q t y) (xs.mapM f) s := by
  induction xs generalizing s with
  | nil => exact pure (List.forall_mem_nil _)
  | cons x xs ih =>
      rw [List.mapM_cons]
      refine (h x List.mem_cons_self s (Std.Refl.refl s)).bind fun y t ht hy => ?_
      have hRest : ∀ x' ∈ xs, ∀ u, R t u → Leads R Q (f x') u := fun x' hx' u hu =>
        h x' (List.mem_cons_of_mem x hx') u (IsTrans.trans _ _ _ ht hu)
      refine (ih hRest).bind fun ys u hu hys => pure ?_
      exact List.forall_mem_cons.2 ⟨hKeeps t u y hu hy, hys⟩

theorem foldlM {f : β → γ → ExceptT Error (StateM σ) β} {xs : List γ}
    (h : ∀ x ∈ xs, ∀ b t, R s t → Q t b → Leads R Q (f b x) t) {b : β} (hStart : Q s b) :
    Leads R Q (xs.foldlM f b) s := by
  induction xs generalizing s b with
  | nil => exact pure hStart
  | cons x xs ih =>
      rw [List.foldlM_cons]
      refine (h x List.mem_cons_self b s (Std.Refl.refl s) hStart).bind fun b' t ht hb' => ?_
      refine ih (fun y hy c u hu hc => ?_) hb'
      exact h y (List.mem_cons_of_mem x hy) c u (IsTrans.trans _ _ _ ht hu) hc

end Leads

end

/-! ## Operations on open runs -/

/-- From open runs, a wiring leads to a history of theirs, and to a result that has a property
there. -/
def WiringLeads {α : Type} (level : Nat) (Q : List Run → α → Prop) (x : Wiring α)
    (runs : List Run) : Prop :=
  RunsReach level runs (x runs).2 ∧ Q (x runs).2 (x runs).1

/-- Whether a bit belongs to the innermost run, if that is of the level that is followed. -/
def Bit.Confined (level : Nat) (runs : List Run) (b : Bit) : Prop :=
  TypedCircuit.Confined level runs b.signal

variable {α β : Type} {level : Nat} {runs : List Run} {P : List Run → α → Prop}
  {Q : List Run → β → Prop}

namespace WiringLeads

theorem pure {a : α} (h : P runs a) : WiringLeads level P (Pure.pure a) runs := ⟨.refl runs, h⟩

theorem bind {x : Wiring α} {f : α → Wiring β} (h : WiringLeads level P x runs)
    (hNext : ∀ a runs', RunsReach level runs runs' → P runs' a → WiringLeads level Q (f a) runs') :
    WiringLeads level Q (x >>= f) runs := by
  obtain ⟨hReach, hResult⟩ := h
  obtain ⟨hReach', hResult'⟩ := hNext _ _ hReach hResult
  exact ⟨hReach.trans hReach', hResult'⟩

/-- A wiring never fails. -/
theorem lift {x : Wiring α} (h : WiringLeads level P x runs) :
    Leads (RunsReach level) P (liftM x : Circuit α) runs :=
  ⟨h.1, fun _ ha => by cases ha; exact h.2⟩

end WiringLeads

theorem runsReach_constrain {gate : Gate}
    (h : ∀ run outer, runs = run :: outer → outer.length = level →
      run.Step [] (run.record gate)) :
    RunsReach level runs (constrain gate runs).2 := by
  cases runs with
  | nil => exact .nil
  | cons run outer => exact .single outer (h run outer rfl)

section

variable {a b : Signal}

/-- An operation on signals of a run makes a signal of the run. -/
theorem deriveSignal_leads (operation : Gate.Operation) (ha : Confined level runs a)
    (hb : Confined level runs b) :
    WiringLeads level (Confined level)
      (deriveSignal operation a b (Signal.combined? operation a b)) runs := by
  cases runs with
  | nil =>
      unfold WiringLeads deriveSignal
      cases Signal.combined? operation a b <;> exact ⟨.nil, trivial⟩
  | cons run outer =>
      refine ⟨.single outer fun hLevel => .derive operation (ha hLevel) (hb hLevel), fun _ => ?_⟩
      show (run.values.push _)[run.values.size]? = some _
      rw [Array.getElem?_push_size]

theorem combine_leads (operation : Gate.Operation) (ha : Confined level runs a)
    (hb : Confined level runs b) :
    WiringLeads level (Confined level) (a.combine operation b) runs := by
  rcases a with x | v
  · rcases b with y | w
    · exact .pure (confined_constant _)
    · exact deriveSignal_leads operation ha hb
  · exact deriveSignal_leads operation ha hb

theorem Signal.equals_leads (ha : Confined level runs a) (hb : Confined level runs b) :
    WiringLeads level (Bit.Confined level) (a.equals b) runs :=
  (combine_leads .isEqual ha hb).bind fun _ _ _ h => .pure h

theorem Bit.Confined.mono {runs' : List Run} (h : RunsReach level runs runs') {b : Bit}
    (hb : b.Confined level runs) : b.Confined level runs' := h.confined hb

theorem Bit.not_leads {a : Bit} (ha : a.Confined level runs) :
    WiringLeads level (Bit.Confined level) a.not runs :=
  (combine_leads .sub (confined_constant 1) ha).bind fun _ _ _ h => .pure h

theorem Bit.and_leads {a b : Bit} (ha : a.Confined level runs) (hb : b.Confined level runs) :
    WiringLeads level (Bit.Confined level) (a.and b) runs :=
  (combine_leads .mul ha hb).bind fun _ _ _ h => .pure h

theorem Bit.or_leads {a b : Bit} (ha : a.Confined level runs) (hb : b.Confined level runs) :
    WiringLeads level (Bit.Confined level) (a.or b) runs :=
  (Bit.not_leads ha).bind fun _ _ hFirst hA => (Bit.not_leads (hb.mono hFirst)).bind
    fun _ _ hNext hB => (Bit.and_leads (hA.mono hNext) hB).bind fun _ _ _ => Bit.not_leads

/-! ## Assertions -/

/-- An assertion that is not refused is a step, unless its operands are constants. -/
theorem Signal.assertEqual_reaches (ha : Confined level runs a) (hb : Confined level runs b) :
    RunsReach level runs (a.assertEqual b runs).2 := by
  rw [assertEqual_eq_guarded]
  cases hRefused : refuseUnequal a b with
  | error e => exact .refl runs
  | ok =>
      show RunsReach level runs
        ((if !(a.isConstant && b.isConstant) then constrain _ else pure () : Circuit Unit) runs).2
      split
      · refine runsReach_constrain ?_
        rintro run outer rfl hLevel
        exact .assertEqual (ha hLevel) (hb hLevel) (refuseUnequal_eq_ok.1 hRefused)
      · exact .refl runs

/-- A rule of a signal is asserted in one step, if it is not refused. -/
theorem Rule.assert_reaches (rule : Rule) (ha : Confined level runs a) :
    RunsReach level runs (rule.assert a runs).2 := by
  by_cases hPasses : rule.Passes a
  · rw [Rule.assert_eq hPasses]
    unfold Rule.assertedGates
    split
    · rw [recordAll_nil]
      exact .refl runs
    · cases runs with
      | nil => exact .nil
      | cons run outer =>
          refine .cons outer fun hLevel => ?_
          have hStep : ∀ gate ∈ rule.gates a.wire, run.Step [] (run.record gate) :=
            fun gate hGate => .assertRule (ha hLevel) hPasses hGate
          cases rule with
          | free => exact ⟨[], by simpa [Rule.gates] using Run.Reaches.refl run⟩
          | boolean | range =>
              exact ⟨[], by simpa [Rule.gates] using .single (hStep _ List.mem_cons_self)⟩
  · obtain ⟨e, hRefused⟩ := Rule.assert_fails hPasses runs
    rw [hRefused]
    exact .refl runs

end

end TypedCircuit
