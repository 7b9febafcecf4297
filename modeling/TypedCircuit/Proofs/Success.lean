import Mathlib.Data.List.Forall2

/-!
# Computations that succeed

Most statements about types start from an operation that succeeded. The operations are
sequences of steps in `Except`, so a success of the whole is opened into the successes of
its steps, and a walk over a list that succeeded is a walk that succeeded at each element.

Operations on a state are sequences as well. There a step hands its result and its state on.
Readers of documents are sequences whose steps may also come to nothing without failing.

## Main results

* `bind_eq_ok`, `map_eq_ok` — a sequence succeeds when its steps do.
* `mapM_eq_ok`, `exists_of_mapM_ok`, `exists_of_mem_mapM_ok` — a walk succeeds when every step of
  it does.
* `bind_state_ok`, `bind_state_error`, `bind_state_eq_ok` — a sequence on a state after its first
  step.
* `bind_eq_some`, `mapM_eq_some` — a sequence comes to something when its steps do;
  `bind_total`, `mapM_total` — it does not fail if none of its steps does.
* `exists_forall₂`, `forall₂_replicate` — what exists for every element exists for all of them in
  order, and what holds of two elements holds of copies of them.
-/

namespace TypedCircuit

variable {ε α β γ : Type}

theorem bind_eq_ok {x : Except ε α} {f : α → Except ε β} {b : β} :
    x >>= f = .ok b ↔ ∃ a, x = .ok a ∧ f a = .ok b := by
  cases x with
  | error e => exact ⟨nofun, nofun⟩
  | ok a => exact ⟨fun h => ⟨a, rfl, h⟩, fun ⟨_, ha, h⟩ => by cases ha; exact h⟩

theorem map_eq_ok {x : Except ε α} {f : α → β} {b : β} :
    x.map f = .ok b ↔ ∃ a, x = .ok a ∧ f a = b := by
  cases x with
  | error e => exact ⟨nofun, nofun⟩
  | ok a =>
      refine ⟨fun h => ⟨a, rfl, ?_⟩, fun ⟨_, ha, h⟩ => ?_⟩
      · cases h; rfl
      · cases ha; exact congrArg Except.ok h

/-- A walk over a list succeeds exactly with the results of its steps, in order. -/
theorem mapM_eq_ok {f : α → Except ε β} {xs : List α} {ys : List β} :
    xs.mapM f = .ok ys ↔ List.Forall₂ (fun x y => f x = .ok y) xs ys := by
  induction xs generalizing ys with
  | nil =>
      rw [List.mapM_nil, List.forall₂_nil_left_iff]
      exact ⟨fun h => by cases h; rfl, fun h => by rw [h]; rfl⟩
  | cons x xs ih =>
      rw [List.mapM_cons, bind_eq_ok]
      constructor
      · rintro ⟨y, hy, h⟩
        obtain ⟨rest, hRest, h⟩ := bind_eq_ok.1 h
        cases h
        exact .cons hy (ih.1 hRest)
      · intro h
        cases h with
        | cons hy hRest =>
            exact ⟨_, hy, bind_eq_ok.2 ⟨_, ih.2 hRest, rfl⟩⟩

theorem exists_of_mapM_ok {f : α → Except ε β} {xs : List α} {ys : List β}
    (h : xs.mapM f = .ok ys) {x : α} (hx : x ∈ xs) : ∃ y, f x = .ok y := by
  induction mapM_eq_ok.1 h with
  | nil => cases hx
  | cons hHead hRest ih =>
      rcases List.mem_cons.1 hx with rfl | hx
      · exact ⟨_, hHead⟩
      · exact ih (mapM_eq_ok.2 hRest) hx

/-- Whatever stands in the second of two related lists is related to something in the first. -/
theorem exists_of_forall₂_mem {R : α → β → Prop} {xs : List α} {ys : List β}
    (h : List.Forall₂ R xs ys) {y : β} (hy : y ∈ ys) : ∃ x ∈ xs, R x y := by
  induction h with
  | nil => cases hy
  | cons hHead _ ih =>
      rcases List.mem_cons.1 hy with rfl | hy
      · exact ⟨_, List.mem_cons_self, hHead⟩
      · obtain ⟨x, hx, hRel⟩ := ih hy
        exact ⟨x, List.mem_cons_of_mem _ hx, hRel⟩

/-- Every result of a walk that succeeded is the result of one of its steps. -/
theorem exists_of_mem_mapM_ok {f : α → Except ε β} {xs : List α} {ys : List β}
    (h : xs.mapM f = .ok ys) {y : β} (hy : y ∈ ys) : ∃ x ∈ xs, f x = .ok y :=
  exists_of_forall₂_mem (mapM_eq_ok.1 h) hy

/-! ## Sequences on a state -/

section

variable {σ : Type} {x : ExceptT ε (StateM σ) α} {f : α → ExceptT ε (StateM σ) β} {s s' : σ}

theorem bind_state_ok {a : α} (h : x s = (.ok a, s')) (f : α → ExceptT ε (StateM σ) β) :
    (x >>= f) s = f a s' := by
  show ExceptT.bindCont f (x s).1 (x s).2 = _
  rw [h]
  rfl

theorem bind_state_error {e : ε} (h : x s = (.error e, s')) (f : α → ExceptT ε (StateM σ) β) :
    (x >>= f) s = (.error e, s') := by
  show ExceptT.bindCont f (x s).1 (x s).2 = _
  rw [h]
  rfl

/-- A sequence that succeeded has a first step that succeeded. -/
theorem bind_state_eq_ok {b : β} (h : (x >>= f) s = (.ok b, s')) :
    ∃ a between, x s = (.ok a, between) ∧ f a between = (.ok b, s') := by
  rcases hx : x s with ⟨_ | a, between⟩
  · rw [bind_state_error hx] at h; cases h
  · rw [bind_state_ok hx] at h; exact ⟨a, between, rfl, h⟩

theorem lift_bind_eq_ok {y : Except ε α} {b : β}
    (h : ((liftM y : ExceptT ε (StateM σ) α) >>= f) s = (.ok b, s')) :
    ∃ a, y = .ok a ∧ f a s = (.ok b, s') := by
  cases y with
  | error e => cases h
  | ok a => exact ⟨a, rfl, h⟩

end

/-! ## Sequences that may come to nothing -/

section

variable {x : OptionT (Except ε) α} {f : α → OptionT (Except ε) β}

theorem bind_eq_some {b : β} :
    (x >>= f).run = .ok (some b) ↔ ∃ a, x.run = .ok (some a) ∧ (f a).run = .ok (some b) := by
  constructor
  · intro h
    obtain ⟨a?, ha, h⟩ := bind_eq_ok.1 h
    cases a? with
    | none => cases h
    | some a => exact ⟨a, ha, h⟩
  · rintro ⟨a, ha, h⟩
    exact bind_eq_ok.2 ⟨some a, ha, h⟩

theorem bind_total (hx : ∃ a?, x.run = .ok a?) (hf : ∀ a, ∃ b?, (f a).run = .ok b?) :
    ∃ b?, (x >>= f).run = .ok b? := by
  obtain ⟨a?, ha⟩ := hx
  cases a? with
  | none => exact ⟨none, bind_eq_ok.2 ⟨none, ha, rfl⟩⟩
  | some a =>
      obtain ⟨b?, hb⟩ := hf a
      exact ⟨b?, bind_eq_ok.2 ⟨some a, ha, hb⟩⟩

/-- A walk comes to something exactly with what its steps come to, in order. -/
theorem mapM_eq_some {xs : List α} {ys : List β} :
    (xs.mapM f).run = .ok (some ys) ↔
      List.Forall₂ (fun x y => (f x).run = .ok (some y)) xs ys := by
  induction xs generalizing ys with
  | nil =>
      rw [List.mapM_nil, List.forall₂_nil_left_iff]
      exact ⟨fun h => by cases h; rfl, fun h => by rw [h]; rfl⟩
  | cons x xs ih =>
      rw [List.mapM_cons, bind_eq_some]
      constructor
      · rintro ⟨y, hy, h⟩
        obtain ⟨rest, hRest, h⟩ := bind_eq_some.1 h
        cases h
        exact .cons hy (ih.1 hRest)
      · intro h
        cases h with
        | cons hy hRest => exact ⟨_, hy, bind_eq_some.2 ⟨_, ih.2 hRest, rfl⟩⟩

/-- A walk that comes to nothing has a step that comes to nothing. -/
theorem exists_of_mapM_none {xs : List α} (h : (xs.mapM f).run = .ok none) :
    ∃ x ∈ xs, (f x).run = .ok none := by
  induction xs with
  | nil => cases h
  | cons x xs ih =>
      rw [List.mapM_cons] at h
      obtain ⟨y?, hy, h⟩ := bind_eq_ok.1 h
      cases y? with
      | none => exact ⟨x, List.mem_cons_self, hy⟩
      | some y =>
          obtain ⟨ys?, hRest, h⟩ := bind_eq_ok.1 h
          cases ys? with
          | none =>
              obtain ⟨x', hx', hNone⟩ := ih hRest
              exact ⟨x', List.mem_cons_of_mem x hx', hNone⟩
          | some ys => cases h

/-- A walk does not fail if none of its steps does. -/
theorem mapM_total {xs : List α} (h : ∀ x ∈ xs, ∃ y?, (f x).run = .ok y?) :
    ∃ ys?, (xs.mapM f).run = .ok ys? := by
  induction xs with
  | nil => exact ⟨some [], rfl⟩
  | cons x xs ih =>
      rw [List.mapM_cons]
      refine bind_total (h x List.mem_cons_self) fun y => ?_
      exact bind_total (ih fun x' hx' => h x' (List.mem_cons_of_mem x hx')) fun ys => ⟨_, rfl⟩

end

/-- If something goes with every element of a list, a list goes with the list. -/
theorem exists_forall₂ {R : α → β → Prop} {xs : List α} (h : ∀ x ∈ xs, ∃ y, R x y) :
    ∃ ys, List.Forall₂ R xs ys := by
  induction xs with
  | nil => exact ⟨[], .nil⟩
  | cons x xs ih =>
      obtain ⟨y, hy⟩ := h x List.mem_cons_self
      obtain ⟨ys, hRest⟩ := ih fun x' hx' => h x' (List.mem_cons_of_mem x hx')
      exact ⟨y :: ys, .cons hy hRest⟩

theorem forall₂_replicate {R : α → β → Prop} {a : α} {b : β} (h : R a b) (count : Nat) :
    List.Forall₂ R (List.replicate count a) (List.replicate count b) := by
  induction count with
  | zero => exact .nil
  | succ count ih => exact .cons h ih

end TypedCircuit
