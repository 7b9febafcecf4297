import TypedCircuit.Proofs.Assigned.Elements
import TypedCircuit.Proofs.Runs.Tracing

/-!
# Formulas

A formula is an expression over elements and bits with named leaves. It is computed with signals,
and which signals its leaves are decides how: constants are folded at once, and everything else
goes through variables and gates of the innermost run.

What comes out does not depend on that. The induction on formulas is made once, for any meaning of
constants and operations that the operations on signals follow. It is then read three times: for
the values that signals carry in a prove pass, for the question which signals are constants, and
for constants, which leave the open runs as they are.

Bits are elements to all of these. If the bits among the leaves are zero or one, so are all bits of
the formula, and operations on them are the Boolean functions.

## Main results

* `Formula.wire_carries` — computing a formula follows any meaning that operations follow.
* `Formula.value_eq_encode` — the arithmetic of bits is the logic of their truth values.
* `Formula.folding_agrees` — a formula has one value, however many of its leaves are constants.
-/

namespace TypedCircuit

/-! ## Expressions -/

/-- What a formula stands for. -/
inductive Formula.Kind where
  | element
  | bit

/-- An expression over elements and bits with leaves named in `ι`. -/
inductive Formula (ι : Type) : Formula.Kind → Type where
  /-- A leaf that is an element. -/
  | element (i : ι) : Formula ι .element
  | add (a b : Formula ι .element) : Formula ι .element
  | sub (a b : Formula ι .element) : Formula ι .element
  | mul (a b : Formula ι .element) : Formula ι .element
  | neg (a : Formula ι .element) : Formula ι .element
  | square (a : Formula ι .element) : Formula ι .element
  /-- The element of a bit. -/
  | ofBit (a : Formula ι .bit) : Formula ι .element
  /-- A leaf that is a bit. -/
  | bit (i : ι) : Formula ι .bit
  /-- Whether two elements are equal. -/
  | equals (a b : Formula ι .element) : Formula ι .bit
  | not (a : Formula ι .bit) : Formula ι .bit
  | and (a b : Formula ι .bit) : Formula ι .bit
  | or (a b : Formula ι .bit) : Formula ι .bit
  /-- Whether two bits are equal. -/
  | same (a b : Formula ι .bit) : Formula ι .bit

namespace Formula

variable {ι α : Type} {k : Kind}

/-- The names of the leaves. -/
def leaves {k : Kind} : Formula ι k → List ι
  | .element i | .bit i => [i]
  | .neg a | .square a | .ofBit a | .not a => a.leaves
  | .add a b | .sub a b | .mul a b | .equals a b | .and a b | .or a b | .same a b =>
    a.leaves ++ b.leaves

/-- The names of the leaves that are bits. -/
def bitLeaves {k : Kind} : Formula ι k → List ι
  | .element _ => []
  | .bit i => [i]
  | .neg a | .square a | .ofBit a | .not a => a.bitLeaves
  | .add a b | .sub a b | .mul a b | .equals a b | .and a b | .or a b | .same a b =>
    a.bitLeaves ++ b.bitLeaves

/-- The formulas that a formula is built of, itself included. -/
def nodes {k : Kind} (e : Formula ι k) : List ((j : Kind) × Formula ι j) :=
  ⟨k, e⟩ :: match e with
  | .element _ | .bit _ => []
  | .neg a | .square a | .ofBit a | .not a => a.nodes
  | .add a b | .sub a b | .mul a b | .equals a b | .and a b | .or a b | .same a b =>
    a.nodes ++ b.nodes

/-- Computes a formula with signals. -/
def wire (leaf : ι → Signal) {k : Kind} : Formula ι k → Wiring Signal
  | .element i | .bit i => return leaf i
  | .add a b => do (← a.wire leaf).add (← b.wire leaf)
  | .sub a b => do (← a.wire leaf).sub (← b.wire leaf)
  | .mul a b => do (← a.wire leaf).mul (← b.wire leaf)
  | .neg a => do (← a.wire leaf).neg
  | .square a => do (← a.wire leaf).square
  | .ofBit a => a.wire leaf
  | .equals a b => do return (← (← a.wire leaf).equals (← b.wire leaf)).signal
  | .not a => do return (← Bit.not ⟨← a.wire leaf⟩).signal
  | .and a b => do return (← Bit.and ⟨← a.wire leaf⟩ ⟨← b.wire leaf⟩).signal
  | .or a b => do return (← Bit.or ⟨← a.wire leaf⟩ ⟨← b.wire leaf⟩).signal
  | .same a b => do return (← Bit.equals ⟨← a.wire leaf⟩ ⟨← b.wire leaf⟩).signal

/-! ## Meanings -/

/-- A meaning of constants and of operations on them. -/
structure Meaning (α : Type) where
  constant : Element → α
  operation : Gate.Operation → α → α → α

/-- The arithmetic of elements. -/
def Meaning.arithmetic : Meaning Element := ⟨id, Gate.Operation.apply⟩

/-- Whether something is made of constants only. -/
def Meaning.constancy : Meaning Bool := ⟨fun _ => true, fun _ => Bool.and⟩

/-- A formula under a meaning of constants and operations. -/
def interpret (m : Meaning α) (leaf : ι → α) {k : Kind} : Formula ι k → α
  | .element i | .bit i => leaf i
  | .add a b => m.operation .add (a.interpret m leaf) (b.interpret m leaf)
  | .sub a b => m.operation .sub (a.interpret m leaf) (b.interpret m leaf)
  | .mul a b | .and a b => m.operation .mul (a.interpret m leaf) (b.interpret m leaf)
  | .neg a => m.operation .sub (m.constant 0) (a.interpret m leaf)
  | .square a => m.operation .mul (a.interpret m leaf) (a.interpret m leaf)
  | .ofBit a => a.interpret m leaf
  | .equals a b | .same a b => m.operation .isEqual (a.interpret m leaf) (b.interpret m leaf)
  | .not a => m.operation .sub (m.constant 1) (a.interpret m leaf)
  | .or a b =>
    m.operation .sub (m.constant 1) (m.operation .mul
      (m.operation .sub (m.constant 1) (a.interpret m leaf))
      (m.operation .sub (m.constant 1) (b.interpret m leaf)))

/-- The element that a formula stands for, where bits are elements too. -/
def value (x : ι → Element) (e : Formula ι k) : Element := e.interpret .arithmetic x

/-- The type of what formulas of a kind denote. -/
abbrev Kind.Denoted : Kind → Type
  | .element => Element
  | .bit => Bool

/-- What is denoted, as an element. -/
def Kind.encode : (k : Kind) → k.Denoted → Element
  | .element, x => x
  | .bit, t => Element.ofBool t

/-- What a formula denotes, given the elements and the truth values of its leaves. -/
def denote (x : ι → Element) (t : ι → Bool) {k : Kind} : Formula ι k → k.Denoted
  | .element i => x i
  | .add a b => a.denote x t + b.denote x t
  | .sub a b => a.denote x t - b.denote x t
  | .mul a b => a.denote x t * b.denote x t
  | .neg a => 0 - a.denote x t
  | .square a => a.denote x t * a.denote x t
  | .ofBit a => Element.ofBool (a.denote x t)
  | .bit i => t i
  | .equals a b => a.denote x t = b.denote x t
  | .not a => !a.denote x t
  | .and a b => a.denote x t && b.denote x t
  | .or a b => a.denote x t || b.denote x t
  | .same a b => a.denote x t == b.denote x t

end Formula

/-! ## Operations that follow a meaning -/

namespace Signal

variable {α : Type}

/-- What is said of signals when some runs are open, and how operations on signals carry it on: it
is said of the result, under a meaning of the operation, and goes on to be said of the others. -/
structure Carries (R : List Run → Signal → α → Prop) (m : Formula.Meaning α) : Prop where
  constant {runs : List Run} {s : Signal} {z : α} (h : R runs s z) (x : Element) :
    R runs (.constant x) (m.constant x)
  combine {runs : List Run} {a b : Signal} {x y : α} (ha : R runs a x) (hb : R runs b y)
    (operation : Gate.Operation) :
    R (a.combine operation b runs).2 (a.combine operation b runs).1 (m.operation operation x y)
  keep {runs : List Run} {a b : Signal} {x y : α} (ha : R runs a x) (hb : R runs b y)
    (operation : Gate.Operation) {s : Signal} {z : α} (hs : R runs s z) :
    R (a.combine operation b runs).2 s z

/-- From open runs, a computation makes a signal of which something is said, and what is said of
other signals stays. -/
def Makes (R : List Run → Signal → α → Prop) (w : Wiring Signal) (runs : List Run) (z : α) :
    Prop :=
  R (w runs).2 (w runs).1 z ∧ ∀ s y, R runs s y → R (w runs).2 s y

variable {R : List Run → Signal → α → Prop} {m : Formula.Meaning α} {runs : List Run}

theorem Makes.pure {s : Signal} {z : α} (h : R runs s z) : Makes R (Pure.pure s) runs z :=
  ⟨h, fun _ _ hs => hs⟩

theorem Makes.bind {w : Wiring Signal} {f : Signal → Wiring Signal} {y z : α}
    (h : Makes R w runs y)
    (hNext : ∀ s runs', R runs' s y → (∀ t x, R runs t x → R runs' t x) → Makes R (f s) runs' z) :
    Makes R (w >>= f) runs z := by
  obtain ⟨hResult, hKeep⟩ := h
  obtain ⟨hResult', hKeep'⟩ := hNext _ _ hResult hKeep
  exact ⟨hResult', fun t x ht => hKeep' t x (hKeep t x ht)⟩

namespace Carries

variable {a b : Signal} {x y : α}

theorem makes (h : Carries R m) (ha : R runs a x) (hb : R runs b y) (operation : Gate.Operation) :
    Makes R (a.combine operation b) runs (m.operation operation x y) :=
  ⟨h.combine ha hb operation, fun _ _ hs => h.keep ha hb operation hs⟩

theorem makes_not (h : Carries R m) (ha : R runs a x) :
    Makes R (do return (← Bit.not ⟨a⟩).signal) runs (m.operation .sub (m.constant 1) x) :=
  h.makes (h.constant ha 1) ha .sub

theorem makes_and (h : Carries R m) (ha : R runs a x) (hb : R runs b y) :
    Makes R (do return (← Bit.and ⟨a⟩ ⟨b⟩).signal) runs (m.operation .mul x y) :=
  h.makes ha hb .mul

theorem makes_or (h : Carries R m) (ha : R runs a x) (hb : R runs b y) :
    Makes R (do return (← Bit.or ⟨a⟩ ⟨b⟩).signal) runs
      (m.operation .sub (m.constant 1) (m.operation .mul
        (m.operation .sub (m.constant 1) x) (m.operation .sub (m.constant 1) y))) :=
  (h.makes_not ha).bind fun _ _ hNotA hKeep =>
    (h.makes_not (hKeep _ _ hb)).bind fun _ _ hNotB hKeep' =>
      (h.makes_and (hKeep' _ _ hNotA) hNotB).bind fun _ _ hAnd _ => h.makes_not hAnd

end Carries

end Signal

namespace Formula

variable {ι α : Type} {k : Kind} {R : List Run → Signal → α → Prop} {m : Meaning α}

/-- Both operands are computed, the left one first, and then used. -/
theorem makes_binary {j : Kind} {a b : Formula ι j} {leaf : ι → Signal} {x : ι → α}
    {f : Signal → Signal → Wiring Signal} {g : α → α → α}
    (ha : ∀ {runs}, (∀ i ∈ a.leaves, R runs (leaf i) (x i)) →
      Signal.Makes R (a.wire leaf) runs (a.interpret m x))
    (hb : ∀ {runs}, (∀ i ∈ b.leaves, R runs (leaf i) (x i)) →
      Signal.Makes R (b.wire leaf) runs (b.interpret m x))
    (hUse : ∀ {runs s t y z}, R runs s y → R runs t z → Signal.Makes R (f s t) runs (g y z))
    {runs : List Run} (hLeaves : ∀ i ∈ a.leaves ++ b.leaves, R runs (leaf i) (x i)) :
    Signal.Makes R (do f (← a.wire leaf) (← b.wire leaf)) runs
      (g (a.interpret m x) (b.interpret m x)) := by
  refine (ha fun i hi => hLeaves i (List.mem_append_left _ hi)).bind fun s between hs hKeep => ?_
  have hRest : ∀ i ∈ b.leaves, R between (leaf i) (x i) := fun i hi =>
    hKeep _ _ (hLeaves i (List.mem_append_right _ hi))
  exact (hb hRest).bind fun t after ht hKeep' => hUse (hKeep' _ _ hs) ht

/-- Computing a formula follows any meaning that operations on signals follow. -/
theorem wire_carries (h : Signal.Carries R m) {leaf : ι → Signal} {x : ι → α} (e : Formula ι k) :
    ∀ {runs}, (∀ i ∈ e.leaves, R runs (leaf i) (x i)) →
      Signal.Makes R (e.wire leaf) runs (e.interpret m x) := by
  induction e with
  | element i | bit i => exact fun hLeaves => .pure (hLeaves i (List.mem_singleton_self i))
  | add a b iha ihb => exact makes_binary iha ihb fun hs ht => h.makes hs ht .add
  | sub a b iha ihb => exact makes_binary iha ihb fun hs ht => h.makes hs ht .sub
  | mul a b iha ihb => exact makes_binary iha ihb fun hs ht => h.makes hs ht .mul
  | equals a b iha ihb => exact makes_binary iha ihb fun hs ht => h.makes hs ht .isEqual
  | and a b iha ihb => exact makes_binary iha ihb h.makes_and
  | or a b iha ihb => exact makes_binary iha ihb h.makes_or
  | same a b iha ihb => exact makes_binary iha ihb fun hs ht => h.makes hs ht .isEqual
  | neg a ih =>
      exact fun hLeaves => (ih hLeaves).bind fun s _ hs _ => h.makes (h.constant hs 0) hs .sub
  | square a ih => exact fun hLeaves => (ih hLeaves).bind fun s _ hs _ => h.makes hs hs .mul
  | not a ih => exact fun hLeaves => (ih hLeaves).bind fun s _ hs _ => h.makes_not hs
  | ofBit a ih => exact ih

end Formula

/-! ## Three readings -/

namespace Signal

variable {outer runs : List Run} {run : Run} {a b s : Signal} {x y : Element}

/-- In a prove run inside other runs, the signal belongs to the run and has the value. -/
def Holds (outer runs : List Run) (s : Signal) (x : Element) : Prop :=
  ∃ run, runs = run :: outer ∧ run.mode = .prove ∧ run.Owns s ∧ s.known? = some x

theorem Holds.constant (h : Holds outer runs s y) (x : Element) :
    Holds outer runs (.constant x) x := by
  obtain ⟨run, hRuns, hProve, -, -⟩ := h
  exact ⟨run, hRuns, hProve, trivial, rfl⟩

/-- An operation adds to the history of the innermost run. -/
theorem exists_combine_runs (outer : List Run) (hProve : run.mode = .prove) (ha : run.Owns a)
    (hb : run.Owns b) (operation : Gate.Operation) :
    ∃ run' inputs, (a.combine operation b (run :: outer)).2 = run' :: outer ∧
      run.Reaches inputs run' ∧ run'.mode = .prove ∧
      run'.Owns (a.combine operation b (run :: outer)).1 := by
  have hLeads : WiringLeads outer.length (Confined outer.length) (a.combine operation b)
      (run :: outer) := combine_leads operation (fun _ => ha) (fun _ => hb)
  obtain ⟨run', hRuns, hReaches⟩ := hLeads.1.exists_cons
  obtain ⟨inputs, hReaches⟩ := hReaches rfl
  have hOwns := hLeads.2
  rw [hRuns] at hOwns
  exact ⟨run', inputs, hRuns, hReaches, hReaches.mode_eq.trans hProve, hOwns rfl⟩

/-- In a prove run, the values of signals follow arithmetic. -/
theorem carries_arithmetic (outer : List Run) : Carries (Holds outer) .arithmetic where
  constant := Holds.constant
  combine := by
    rintro _ a b x y ⟨run, rfl, hProve, ha, hx⟩ ⟨_, hSame, -, hb, hy⟩ operation
    cases hSame
    obtain ⟨run', _, hRuns, -, hProve', hOwns⟩ := exists_combine_runs outer hProve ha hb operation
    have hValues : haveValues (run :: outer) = true := by
      show (some run.mode != some .compile) = true
      rw [hProve]
      rfl
    exact ⟨run', hRuns, hProve', hOwns, (tracks_known.combine hValues hx hy operation).1⟩
  keep := by
    rintro _ a b x y ⟨run, rfl, hProve, ha, -⟩ ⟨_, hSame, -, hb, -⟩ operation s z
      ⟨_, hSame', -, hs, hz⟩
    cases hSame
    cases hSame'
    obtain ⟨run', _, hRuns, hReaches, hProve', -⟩ :=
      exists_combine_runs outer hProve ha hb operation
    exact ⟨run', hRuns, hProve', hReaches.owns hs, hz⟩

/-- Inside a run, a result is a constant exactly if both operands are. -/
theorem carries_constancy :
    Carries (fun runs s c => runs ≠ [] ∧ s.isConstant = c) .constancy where
  constant h _ := ⟨h.1, rfl⟩
  combine := by
    rintro (_ | ⟨run, outer⟩) a b c d ⟨hRuns, rfl⟩ ⟨-, rfl⟩ operation
    · exact absurd rfl hRuns
    · cases a <;> cases b <;> exact ⟨List.cons_ne_nil _ _, rfl⟩
  keep := by
    rintro (_ | ⟨run, outer⟩) a b c d ⟨hRuns, -⟩ - operation s z ⟨-, hs⟩
    · exact absurd rfl hRuns
    · cases a <;> cases b <;> exact ⟨List.cons_ne_nil _ _, hs⟩

/-- Operations on constants follow arithmetic and leave the open runs as they are. -/
theorem carries_constants (open₀ : List Run) :
    Carries (fun runs s x => runs = open₀ ∧ s = .constant x) .arithmetic where
  constant h _ := ⟨h.1, rfl⟩
  combine := by
    rintro _ _ _ x y ⟨rfl, rfl⟩ ⟨-, rfl⟩ operation
    exact ⟨rfl, rfl⟩
  keep := by
    rintro _ _ _ x y ⟨rfl, rfl⟩ ⟨-, rfl⟩ operation s z ⟨-, hs⟩
    exact ⟨rfl, hs⟩

end Signal

namespace Formula

variable {ι : Type} {k : Kind} {leaf : ι → Signal} {x : ι → Element} {t : ι → Bool}

/-- A formula is made of constants only if its leaves are. -/
theorem interpret_constancy (c : ι → Bool) (e : Formula ι k) :
    e.interpret .constancy c = e.leaves.all c := by
  induction e with
  | element i | bit i => exact (Bool.and_true _).symm
  | neg a ih | not a ih => exact (Bool.true_and _).trans ih
  | square a ih => exact (Bool.and_self _).trans ih
  | ofBit a ih => exact ih
  | add a b iha ihb | sub a b iha ihb | mul a b iha ihb | equals a b iha ihb | and a b iha ihb
  | same a b iha ihb =>
      exact (congrArg₂ Bool.and iha ihb).trans List.all_append.symm
  | or a b iha ihb =>
      have hBoth : (a.interpret .constancy c && b.interpret .constancy c) =
          (a.leaves ++ b.leaves).all c := (congrArg₂ Bool.and iha ihb).trans List.all_append.symm
      show (true && ((true && a.interpret .constancy c) && (true && b.interpret .constancy c))) = _
      rw [Bool.true_and, Bool.true_and, Bool.true_and, hBoth]
      rfl

/-- The arithmetic of bits is the logic of their truth values: if the leaves that are bits stand
for truth values, so do all bits. -/
theorem value_eq_encode (e : Formula ι k) (h : ∀ i ∈ e.bitLeaves, x i = Element.ofBool (t i)) :
    e.value x = k.encode (e.denote x t) := by
  induction e with
  | element i => rfl
  | bit i => exact h i (List.mem_singleton_self i)
  | neg a ih => exact congrArg (0 - ·) (ih h)
  | square a ih => exact congrArg (fun y => y * y) (ih h)
  | ofBit a ih => exact ih h
  | not a ih => exact (congrArg (1 - ·) (ih h)).trans (Element.one_sub_ofBool _)
  | add a b iha ihb =>
      obtain ⟨ha, hb⟩ := List.forall_mem_append.1 h
      exact congrArg₂ (· + ·) (iha ha) (ihb hb)
  | sub a b iha ihb =>
      obtain ⟨ha, hb⟩ := List.forall_mem_append.1 h
      exact congrArg₂ (· - ·) (iha ha) (ihb hb)
  | mul a b iha ihb =>
      obtain ⟨ha, hb⟩ := List.forall_mem_append.1 h
      exact congrArg₂ (· * ·) (iha ha) (ihb hb)
  | equals a b iha ihb =>
      obtain ⟨ha, hb⟩ := List.forall_mem_append.1 h
      exact congrArg₂ (fun y z => Element.ofBool (y = z)) (iha ha) (ihb hb)
  | and a b iha ihb =>
      obtain ⟨ha, hb⟩ := List.forall_mem_append.1 h
      exact (congrArg₂ (· * ·) (iha ha) (ihb hb)).trans (Element.ofBool_mul_ofBool _ _)
  | or a b iha ihb =>
      obtain ⟨ha, hb⟩ := List.forall_mem_append.1 h
      show 1 - (1 - a.value x) * (1 - b.value x) = Element.ofBool (a.denote x t || b.denote x t)
      rw [iha ha, ihb hb]
      show 1 - (1 - Element.ofBool _) * (1 - Element.ofBool _) = _
      rw [Element.one_sub_ofBool, Element.one_sub_ofBool, Element.ofBool_mul_ofBool,
        Element.one_sub_ofBool, Bool.not_and, Bool.not_not, Bool.not_not]
  | same a b iha ihb =>
      obtain ⟨ha, hb⟩ := List.forall_mem_append.1 h
      show Element.ofBool (a.value x = b.value x) = Element.ofBool (a.denote x t == b.denote x t)
      rw [iha ha, ihb hb]
      show Element.ofBool (Element.ofBool _ = Element.ofBool _) = _
      rw [decide_eq_decide.2 Element.ofBool_inj]
      rfl

/-- The leaves of a part are leaves of the formula, and the bits among them are bits. -/
theorem leaves_subset (e : Formula ι k) {j : Kind} {p : Formula ι j} (h : ⟨j, p⟩ ∈ e.nodes) :
    p.leaves ⊆ e.leaves ∧ p.bitLeaves ⊆ e.bitLeaves := by
  induction e with
  | element i | bit i =>
      cases List.mem_singleton.1 h
      exact ⟨List.Subset.refl _, List.Subset.refl _⟩
  | neg a ih | square a ih | ofBit a ih | not a ih =>
      rcases List.mem_cons.1 h with hSelf | hInner
      · cases hSelf
        exact ⟨List.Subset.refl _, List.Subset.refl _⟩
      · exact ih hInner
  | add a b iha ihb | sub a b iha ihb | mul a b iha ihb | equals a b iha ihb | and a b iha ihb
  | or a b iha ihb | same a b iha ihb =>
      rcases List.mem_cons.1 h with hSelf | hInner
      · cases hSelf
        exact ⟨List.Subset.refl _, List.Subset.refl _⟩
      · rcases List.mem_append.1 hInner with ha | hb
        · exact ⟨List.subset_append_of_subset_left _ (iha ha).1,
            List.subset_append_of_subset_left _ (iha ha).2⟩
        · exact ⟨List.subset_append_of_subset_right _ (ihb hb).1,
            List.subset_append_of_subset_right _ (ihb hb).2⟩

/-- Computed with constants, a formula is the constant of its value, and nothing is recorded. -/
theorem wire_constants (e : Formula ι k) (h : ∀ i ∈ e.leaves, leaf i = .constant (x i))
    (runs : List Run) : e.wire leaf runs = (.constant (e.value x), runs) := by
  obtain ⟨⟨hRuns, hResult⟩, -⟩ :=
    e.wire_carries (Signal.carries_constants runs) fun i hi => ⟨rfl, h i hi⟩
  exact Prod.ext hResult hRuns

/-- Computed in a prove run, a formula has its value, and is a constant exactly if its leaves
are. -/
theorem wire_holds (e : Formula ι k) {run : Run} (outer : List Run) (hProve : run.mode = .prove)
    (h : ∀ i ∈ e.leaves, run.Owns (leaf i) ∧ (leaf i).known? = some (x i)) :
    Signal.Holds outer (e.wire leaf (run :: outer)).2 (e.wire leaf (run :: outer)).1 (e.value x) ∧
      (e.wire leaf (run :: outer)).1.isConstant = e.leaves.all fun i => (leaf i).isConstant := by
  constructor
  · exact (e.wire_carries (Signal.carries_arithmetic outer)
      fun i hi => ⟨run, rfl, hProve, h i hi⟩).1
  · rw [← interpret_constancy]
    exact (e.wire_carries Signal.carries_constancy
      fun i _ => ⟨List.cons_ne_nil run outer, rfl⟩).1.2

/-- Constant folding agrees with computing in a circuit. Take a formula of which some leaves are
constants and the others variables of a prove run, and all have values.

Its value there is its value as a formula of constants, computed in no run. It is a constant
exactly if all leaves are. Any part of it whose leaves are constants records nothing. And if the
leaves that are bits are zero or one, then wherever a part that is a bit is computed in the
history of the run, it is the bit that logic says. -/
theorem folding_agrees (e : Formula ι k) {run : Run} (outer : List Run)
    (hProve : run.mode = .prove)
    (hLeaves : ∀ i ∈ e.leaves, run.Owns (leaf i) ∧ (leaf i).known? = some (x i)) :
    (∃ s run', e.wire leaf (run :: outer) = (s, run' :: outer) ∧ run'.Owns s ∧
      e.wire (fun i => .constant (x i)) [] = (.constant (e.value x), []) ∧
      s.value = .ok (e.value x) ∧
      (s.isConstant = true ↔ ∀ i ∈ e.leaves, (leaf i).isConstant = true)) ∧
    (∀ j (p : Formula ι j), ⟨j, p⟩ ∈ e.nodes → (∀ i ∈ p.leaves, (leaf i).isConstant = true) →
      ∀ runs, p.wire leaf runs = (.constant (p.value x), runs)) ∧
    ∀ t : ι → Bool, (∀ i ∈ e.bitLeaves, x i = Element.ofBool (t i)) →
      ∀ p : Formula ι .bit, ⟨.bit, p⟩ ∈ e.nodes → p.value x = Element.ofBool (p.denote x t) ∧
        ∀ run' inputs, run.Reaches inputs run' →
          (Bit.mk (p.wire leaf (run' :: outer)).1).value = .ok (p.denote x t) := by
  refine ⟨?_, fun j p hPart hConstant runs => ?_, fun t hBits p hPart => ?_⟩
  · obtain ⟨⟨run', hRuns, -, hOwns, hKnown⟩, hConstant⟩ :=
      e.wire_holds outer hProve hLeaves
    refine ⟨_, run', Prod.ext rfl hRuns, hOwns, e.wire_constants (fun _ _ => rfl) [],
      Signal.value_eq_ok.2 hKnown, ?_⟩
    rw [hConstant, List.all_eq_true]
  · refine p.wire_constants (fun i hi => ?_) runs
    obtain ⟨-, hKnown⟩ := hLeaves i ((e.leaves_subset hPart).1 hi)
    have hLeaf := hConstant i hi
    rcases hSignal : leaf i with y | v
    · rw [hSignal] at hKnown
      exact congrArg Signal.constant (Option.some.inj hKnown)
    · rw [hSignal] at hLeaf
      cases hLeaf
  · have hValue : p.value x = Element.ofBool (p.denote x t) :=
      p.value_eq_encode fun i hi => hBits i ((e.leaves_subset hPart).2 hi)
    refine ⟨hValue, fun run' inputs hReaches => Bit.value_eq_ok.2 ?_⟩
    obtain ⟨⟨_, -, -, -, hKnown⟩, -⟩ := p.wire_holds outer
      (hReaches.mode_eq.trans hProve) fun i hi =>
        let hLeaf := hLeaves i ((e.leaves_subset hPart).1 hi)
        ⟨hReaches.owns hLeaf.1, hLeaf.2⟩
    rw [← hValue]
    exact hKnown

/-! ## A square that is compared -/

/-- Whether the square of an element is another one, or a bit is not set. -/
private def squaredOrUnset : Formula (Fin 3) .bit :=
  .or (.equals (.square (.element 0)) (.element 1)) (.not (.bit 2))

/-- The root is a constant, and the square and the bit are variables. -/
private def squareLeaf : Fin 3 → Signal
  | 0 => .constant 3
  | 1 => .variable ⟨0, some 9⟩
  | 2 => .variable ⟨1, some 1⟩

private def squareElement : Fin 3 → Element
  | 0 => 3
  | 1 => 9
  | 2 => 1

/-- Three squared is nine, also where only the three is a constant, and squaring it is free. -/
theorem folding_agrees_squared :
    ∃ s run', squaredOrUnset.wire squareLeaf [⟨.prove, #[some 9, some 1], 2, #[]⟩] = (s, [run']) ∧
      s.value = .ok 1 ∧ s.isConstant = false ∧
      (∀ runs, (Formula.square (.element 0)).wire squareLeaf runs = (.constant 9, runs)) ∧
      squaredOrUnset.wire (fun i => .constant (squareElement i)) [] = (.constant 1, []) ∧
      (Bit.mk (squaredOrUnset.wire squareLeaf [⟨.prove, #[some 9, some 1], 2, #[]⟩]).1).value =
        .ok true := by
  have hLeaves : ∀ i ∈ squaredOrUnset.leaves,
      Run.Owns ⟨.prove, #[some 9, some 1], 2, #[]⟩ (squareLeaf i) ∧
        (squareLeaf i).known? = some (squareElement i) := by
    intro i _
    match i with
    | 0 => exact ⟨trivial, rfl⟩
    | 1 | 2 => exact ⟨rfl, rfl⟩
  obtain ⟨⟨s, run', hWire, -, hConstants, hValue, hFolded⟩, hParts, hBits⟩ :=
    squaredOrUnset.folding_agrees [] rfl hLeaves
  refine ⟨s, run', hWire, hValue, ?_, ?_, hConstants, ?_⟩
  · refine Bool.eq_false_iff.2 fun hConstant => ?_
    exact Bool.false_ne_true (hFolded.1 hConstant 1 (by decide))
  · refine hParts .element _ (.tail _ (.tail _ (.head _))) fun i hi => ?_
    cases List.mem_singleton.1 hi
    rfl
  · refine (hBits (fun _ => true) ?_ _ (.head _)).2 _ [] (.refl _)
    intro i hi
    cases List.mem_singleton.1 hi
    rfl

end Formula

end TypedCircuit
