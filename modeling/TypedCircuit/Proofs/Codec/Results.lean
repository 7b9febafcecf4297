import TypedCircuit.Proofs.Codec.Items

/-!
# Results apart from errors

Two types that do the same may still have different names, and an error says the name of the type
that raised it. So what two operations have in common is that they succeed with the same results or
both fail, and inside of a circuit that they leave the runs the same, whether they succeed or not.

A result that two operations share is reached step by step, so both notions follow the sequences of
steps that operations are made of.

## Main results

* `SameResult.bind`, `SameRun.lift_bind` — sequences of steps with the same results have the same
  results.
* `Codec.toFields_ok_iff`, `Codec.ofFieldsWithAux_eq_ok`, `Codec.rebuildExactly_eq_ok` — what is
  verified before a type gives a result.
-/

namespace TypedCircuit

variable {α β : Type}

/-- Two computations succeed with the same results, or both fail. -/
def SameResult (x y : Except Error α) : Prop := ∀ a, x = .ok a ↔ y = .ok a

/-- Two operations leave the runs the same, and succeed with the same results or both fail. -/
def SameRun (x y : Circuit α) : Prop :=
  ∀ runs, SameResult (x runs).1 (y runs).1 ∧ (x runs).2 = (y runs).2

namespace SameResult

variable {x y : Except Error α}

theorem refl (x : Except Error α) : SameResult x x := fun _ => Iff.rfl

theorem symm (h : SameResult x y) : SameResult y x := fun a => (h a).symm

theorem trans {z : Except Error α} (h : SameResult x y) (h' : SameResult y z) : SameResult x z :=
  fun a => (h a).trans (h' a)

theorem bind (h : SameResult x y) {f g : α → Except Error β}
    (hNext : ∀ a, x = .ok a → SameResult (f a) (g a)) : SameResult (x >>= f) (y >>= g) := by
  intro b
  rw [bind_eq_ok, bind_eq_ok]
  refine exists_congr fun a => ?_
  rw [← h a]
  exact and_congr_right fun ha => hNext a ha b

theorem map (h : SameResult x y) (f : α → β) : SameResult (x.map f) (y.map f) := by
  intro b
  rw [map_eq_ok, map_eq_ok]
  exact exists_congr fun a => and_congr_left fun _ => h a

/-- A walk has the same results if its steps do. -/
theorem mapM {xs : List α} {f g : α → Except Error β} (h : ∀ x ∈ xs, SameResult (f x) (g x)) :
    SameResult (xs.mapM f) (xs.mapM g) := by
  induction xs with
  | nil => exact .refl _
  | cons x xs ih =>
      rw [List.mapM_cons, List.mapM_cons]
      refine (h x List.mem_cons_self).bind fun _ _ => ?_
      exact (ih fun y hy => h y (List.mem_cons_of_mem x hy)).bind fun _ _ => .refl _

/-- Two computations that only differ in the error of a refusal. -/
theorem guarded {condition : Prop} [Decidable condition] (h : SameResult x y) (e e' : Error) :
    SameResult (if condition then x else .error e) (if condition then y else .error e') := by
  split
  · exact h
  · exact fun _ => ⟨nofun, nofun⟩

end SameResult

namespace SameRun

theorem refl (x : Circuit α) : SameRun x x := fun _ => ⟨.refl _, rfl⟩

theorem lift_bind {x y : Except Error α} (h : SameResult x y) {f g : α → Circuit β}
    (hNext : ∀ a, x = .ok a → SameRun (f a) (g a)) :
    SameRun ((liftM x : Circuit α) >>= f) ((liftM y : Circuit α) >>= g) := by
  intro runs
  cases x with
  | ok a =>
      obtain rfl := (h a).1 rfl
      exact hNext a rfl runs
  | error e =>
      cases y with
      | ok a => exact nomatch (h a).2 rfl
      | error e' => exact ⟨fun _ => ⟨nofun, nofun⟩, rfl⟩

theorem bind {x y : Circuit α} (h : SameRun x y) {f g : α → Circuit β}
    (hNext : ∀ a, SameRun (f a) (g a)) : SameRun (x >>= f) (y >>= g) := by
  intro runs
  obtain ⟨hResult, hRuns⟩ := h runs
  rcases hx : x runs with ⟨_ | a, after⟩
  · rcases hy : y runs with ⟨_ | b, after'⟩
    · rw [hx, hy] at hRuns
      rw [bind_state_error hx, bind_state_error hy]
      exact ⟨fun _ => ⟨nofun, nofun⟩, hRuns⟩
    · rw [hx, hy] at hResult
      exact nomatch (hResult b).2 rfl
  · rcases hy : y runs with ⟨_ | b, after'⟩
    · rw [hx, hy] at hResult
      exact nomatch (hResult a).1 rfl
    · rw [hx, hy] at hResult hRuns
      cases (hResult a).1 rfl
      cases hRuns
      rw [bind_state_ok hx, bind_state_ok hy]
      exact hNext a after

theorem forM {xs : List α} {f g : α → Circuit Unit} (h : ∀ x ∈ xs, SameRun (f x) (g x)) :
    SameRun (xs.forM f) (xs.forM g) := by
  induction xs with
  | nil => exact .refl _
  | cons x xs ih =>
      show SameRun (f x >>= fun _ => xs.forM f) (g x >>= fun _ => xs.forM g)
      exact (h x List.mem_cons_self).bind fun _ => ih fun y hy => h y (List.mem_cons_of_mem x hy)

end SameRun

/-! ## What is verified -/

namespace Codec

variable {c : Codec} {p : Part} {fields : List Signal} {aux : List Value} {v : Value}

theorem toFields_ok_iff :
    c.toFields v = .ok fields ↔
      ∃ w, c.width () = .ok w ∧ fields.length = w.fields ∧ c.flatten v = .ok fields := by
  constructor
  · intro h
    obtain ⟨w, hw, hLength⟩ := length_of_toFields h
    obtain ⟨out, hFlat, h⟩ := bind_eq_ok.1 h
    obtain ⟨_, -, h⟩ := bind_eq_ok.1 h
    split at h
    · cases h
      exact ⟨w, hw, hLength, hFlat⟩
    · cases h
  · rintro ⟨w, hw, hLength, hFlat⟩
    exact bind_eq_ok.2 ⟨fields, hFlat, bind_eq_ok.2 ⟨w, hw, if_pos hLength⟩⟩

theorem ofFieldsWithAux_eq_ok :
    c.ofFieldsWithAux fields aux = .ok v ↔
      ∃ w, c.width () = .ok w ∧ aux.length = w.aux ∧ c.rebuild fields aux = .ok v := by
  unfold ofFieldsWithAux
  rw [bind_eq_ok]
  refine exists_congr fun w => and_congr_right fun _ => ?_
  by_cases hAux : aux.length = w.aux
  · rw [if_pos hAux]
    exact ⟨fun h => ⟨hAux, h⟩, fun h => h.2⟩
  · rw [if_neg hAux]
    exact ⟨nofun, fun h => absurd h.1 hAux⟩

theorem rebuildExactly_eq_ok :
    rebuildExactly p fields aux = .ok v ↔
      ∃ w, p.width () = .ok w ∧ fields.length = w.fields ∧ aux.length = w.aux ∧
        p.rebuild fields aux = .ok v := by
  unfold rebuildExactly
  rw [bind_eq_ok]
  refine exists_congr fun w => and_congr_right fun _ => ?_
  by_cases hFields : fields.length = w.fields
  · rw [if_neg (not_not_intro hFields)]
    by_cases hAux : aux.length = w.aux
    · rw [if_neg (not_not_intro hAux)]
      exact ⟨fun h => ⟨hFields, hAux, h⟩, fun h => h.2.2⟩
    · rw [if_pos hAux]
      exact ⟨nofun, fun h => absurd h.2.1 hAux⟩
  · rw [if_pos hFields]
    exact ⟨nofun, fun h => absurd h.1 hFields⟩

end Codec

end TypedCircuit
