import TypedCircuit.Proofs.Hash.Collisions

/-!
# Assigned elements

The elements of a value of a type are the values that its signals have. An operation on values
of a type is a sequence of operations on signals, so what it does to elements is found in two
steps: the arithmetic of the field, and the order in which the steps are taken.

A relation that operations keep (`Signal.Tracks`) says what a signal has to do with an element.
Selections look at signals too, to find constants that need no arithmetic. For them a constant
has to be related to nothing but itself, which is what `Signal.Reads` adds.

`Yields` is total: a computation that yields a result succeeds in all runs of a kind, and leaves
runs of that kind behind.

## Main results

* `Element.add_mul_ofBool`, `Element.blend_ofBool` — a bit as a factor takes all or nothing.
* `Signal.reads_known`, `Signal.reads_sound`, `Signal.reads_constant` — three ways to read signals.
* `Yields.bind`, `Yields.mapM` — what a sequence of steps yields.
* `Codec.elements_eq_ok` — the elements of a value of a type.
-/

namespace TypedCircuit

/-! ## Arithmetic with bits -/

namespace Element

theorem toNat_zero : (0 : Element).toNat = 0 := rfl

theorem toNat_one : (1 : Element).toNat = 1 := rfl

theorem zero_ne_one : (0 : Element) ≠ 1 := by decide

theorem ofBool_inj {s t : Bool} : ofBool s = ofBool t ↔ s = t := by
  revert s t
  decide

protected theorem add_zero (x : Element) : x + 0 = x :=
  ext (Nat.mod_eq_of_lt x.toNat_lt)

protected theorem zero_add (x : Element) : 0 + x = x := by
  apply ext
  rw [toNat_add, toNat_zero, Nat.zero_add, Nat.mod_eq_of_lt x.toNat_lt]

protected theorem mul_one (x : Element) : x * 1 = x := by
  apply ext
  rw [toNat_mul, toNat_one, Nat.mul_one, Nat.mod_eq_of_lt x.toNat_lt]

protected theorem mul_zero (x : Element) : x * 0 = 0 := rfl

protected theorem mul_comm (x y : Element) : x * y = y * x := by
  apply ext
  rw [toNat_mul, toNat_mul, Nat.mul_comm]

/-- A difference makes up for what was taken away. -/
theorem add_sub_cancel (x y : Element) : y + (x - y) = x := by
  have hLe : y.toNat ≤ x.toNat + modulus :=
    Nat.le_trans (Nat.le_of_lt y.toNat_lt) (Nat.le_add_left _ _)
  apply ext
  calc (y + (x - y)).toNat
      = (y.toNat + (x.toNat + modulus - y.toNat)) % modulus := Nat.add_mod_mod ..
    _ = (x.toNat + modulus) % modulus := by rw [Nat.add_sub_of_le hLe]
    _ = x.toNat := by rw [Nat.add_mod_right, Nat.mod_eq_of_lt x.toNat_lt]

/-- An element that is weighted with a bit is added or is not. -/
theorem add_mul_ofBool (sum x : Element) (t : Bool) :
    sum + x * ofBool t = if t then sum + x else sum := by
  cases t with
  | true => rw [if_pos rfl, ofBool, if_pos rfl, x.mul_one]
  | false => rw [if_neg Bool.false_ne_true, ofBool, if_neg Bool.false_ne_true, x.mul_zero,
      sum.add_zero]

/-- A difference that is weighted with a bit leads from one element to the other, or nowhere. -/
theorem blend_ofBool (t : Bool) (x y : Element) :
    y + ofBool t * (x - y) = if t then x else y := by
  rw [Element.mul_comm, add_mul_ofBool]
  cases t with
  | true => rw [if_pos rfl, if_pos rfl, add_sub_cancel]
  | false => rw [if_neg Bool.false_ne_true, if_neg Bool.false_ne_true]

theorem one_sub_ofBool (t : Bool) : 1 - ofBool t = ofBool !t := by
  revert t
  decide

theorem ofBool_mul_ofBool (s t : Bool) : ofBool s * ofBool t = ofBool (s && t) := by
  revert s t
  decide

end Element

/-! ## Reading signals -/

/-- The truth value of a bit is true or false exactly if its signal is one or zero. -/
theorem Bit.value_eq_ok {b : Bit} {t : Bool} :
    b.value = .ok t ↔ b.signal.known? = some (Element.ofBool t) := by
  rw [← Signal.value_eq_ok]
  unfold value
  cases b.signal.value with
  | error e => exact ⟨nofun, nofun⟩
  | ok x =>
      show (if x = 0 then Except.ok false else if x = 1 then Except.ok true else _) = .ok t ↔ _
      by_cases hZero : x = 0
      · rw [if_pos hZero, hZero]
        cases t <;> simp [Element.ofBool, Element.zero_ne_one]
      · by_cases hOne : x = 1
        · rw [if_neg hZero, if_pos hOne, hOne]
          cases t <;> simp [Element.ofBool, Element.zero_ne_one.symm]
        · rw [if_neg hZero, if_neg hOne]
          cases t <;> simp [Element.ofBool, hZero, hOne]

namespace Signal

/-- A relation between signals and elements that operations keep, and that relates constants to
nothing but themselves. -/
structure Reads (R : Signal → Element → Prop) (Open : List Run → Prop) : Prop
    extends Tracks R Open where
  exact {x y : Element} (h : R (.constant x) y) : x = y

/-- Where values are kept, signals are read by their values. -/
theorem reads_known : Reads (fun s x => s.known? = some x) (fun runs => haveValues runs = true) :=
  ⟨tracks_known, Option.some.inj⟩

/-- Everywhere, signals without a value may be read as anything. -/
theorem reads_sound : Reads (fun s x => ∀ z, s.known? = some z → z = x) (fun _ => True) :=
  ⟨tracks_sound, fun h => h _ rfl⟩

/-- Everywhere, constants are read as themselves. -/
theorem reads_constant : Reads (fun s x => s = .constant x) (fun _ => True) :=
  ⟨tracks_constant, Signal.constant.inj⟩

end Signal

/-! ## Computations that yield a result -/

/-- A computation succeeds in all runs of a kind, with a result of some kind, and leaves runs of
that kind behind. -/
def Yields {α : Type} (Open : List Run → Prop) (P : α → Prop) (x : Circuit α) : Prop :=
  ∀ runs, Open runs → ∃ a after, x runs = (.ok a, after) ∧ P a ∧ Open after

namespace Yields

variable {α β γ : Type} {Open : List Run → Prop} {P : α → Prop} {Q : β → Prop}

theorem pure {a : α} (h : P a) : Yields Open P (Pure.pure a) :=
  fun runs hOpen => ⟨a, runs, rfl, h, hOpen⟩

theorem bind {x : Circuit α} {f : α → Circuit β} (h : Yields Open P x)
    (hNext : ∀ a, P a → Yields Open Q (f a)) : Yields Open Q (x >>= f) := by
  intro runs hOpen
  obtain ⟨a, between, hx, ha, hBetween⟩ := h runs hOpen
  rw [bind_state_ok hx]
  exact hNext a ha between hBetween

/-- A step that does not touch the runs. -/
theorem result {x : Except Error α} {a : α} (h : x = .ok a) (ha : P a) :
    Yields Open P (liftM x) := by
  subst h
  exact fun runs hOpen => ⟨a, runs, rfl, ha, hOpen⟩

theorem result_bind {x : Except Error α} {a : α} {f : α → Circuit β} (h : x = .ok a)
    (hNext : Yields Open Q (f a)) : Yields Open Q (liftM x >>= f) := by
  subst h
  exact hNext

/-- A step that cannot fail. -/
theorem wiring {m : Wiring α} (h : ∀ runs, Open runs → P (m runs).1 ∧ Open (m runs).2) :
    Yields Open P (liftM m) :=
  fun runs hOpen => ⟨_, _, rfl, h runs hOpen⟩

theorem imp {P' : α → Prop} {x : Circuit α} (h : Yields Open P x) (hImp : ∀ a, P a → P' a) :
    Yields Open P' x := by
  intro runs hOpen
  obtain ⟨a, after, hx, ha, hAfter⟩ := h runs hOpen
  exact ⟨a, after, hx, hImp a ha, hAfter⟩

/-- What was returned is what is yielded. -/
theorem of_ok {x : Circuit α} (h : Yields Open P x) {runs after : List Run} (hOpen : Open runs)
    {a : α} (hOk : x runs = (.ok a, after)) : P a := by
  obtain ⟨_, _, hx, ha, -⟩ := h runs hOpen
  rw [hOk] at hx
  cases hx
  exact ha

/-- A walk yields what its steps yield, in order. -/
theorem mapM {R : β → γ → Prop} {f : α → Circuit β} {xs : List α} {ys : List γ}
    (h : List.Forall₂ (fun x y => Yields Open (R · y) (f x)) xs ys) :
    Yields Open (fun out => List.Forall₂ R out ys) (xs.mapM f) := by
  induction h with
  | nil => rw [List.mapM_nil]; exact .pure .nil
  | cons hHead _ ih =>
      rw [List.mapM_cons]
      exact hHead.bind fun b hb => ih.bind fun rest hRest => .pure (.cons hb hRest)

end Yields

/-! ## The elements of a value -/

namespace Codec

/-- The values of the elements of a value of a type. -/
def elements (c : Codec) (v : Value) : Except Error (List Element) := do
  let fields ← c.toFields v
  fields.mapM fun s : Signal => s.value

/-- A value flattens to signals that are read as some elements. -/
def ReadAs (c : Codec) (R : Signal → Element → Prop) (v : Value) (xs : List Element) : Prop :=
  ∃ fields, c.toFields v = .ok fields ∧ List.Forall₂ R fields xs

variable {c : Codec} {v : Value}

theorem elements_eq_ok {xs : List Element} :
    c.elements v = .ok xs ↔ c.ReadAs (fun s x => s.known? = some x) v xs := by
  unfold elements
  rw [bind_eq_ok]
  exact exists_congr fun fields => and_congr_right fun _ => values_eq_ok

theorem ReadAs.imp {R R' : Signal → Element → Prop} {xs : List Element} (h : c.ReadAs R v xs)
    (hImp : ∀ s x, R s x → R' s x) : c.ReadAs R' v xs := by
  obtain ⟨fields, hFields, hRead⟩ := h
  exact ⟨fields, hFields, hRead.imp hImp⟩

/-- A value of a lawful type is read as as many elements as the type has. -/
theorem ReadAs.length_eq {law : Part.Law} {R : Signal → Element → Prop} {xs : List Element}
    (hRead : c.ReadAs R v xs) (h : c.part.Lawful law) : xs.length = law.width.fields := by
  obtain ⟨fields, hFields, hRead⟩ := hRead
  exact hRead.length_eq.symm.trans (h.fields_length hFields)

end Codec

end TypedCircuit
