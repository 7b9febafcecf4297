import TypedCircuit.Circuit.Run

/-!
# Operations on signals and bits

An operation on two constants is a constant and records nothing. Any other operation
allocates a variable for its result in the active run and records the gate that derives
it. Outside every run the result is a constant if its value is known and the detached
variable otherwise.

An assertion fails at once when the values are known and violate it. Otherwise it
records a gate, unless its operands are constants or no run is active. The choice
between folding and recording looks only at which operands are constants, never at
values, so every pass over the same operations records the same gates.
-/

namespace TypedCircuit

/-- Records a gate in the active run, if there is one. -/
def constrain (gate : Gate) : Wiring Unit :=
  modify fun
    | [] => []
    | run :: outer => run.record gate :: outer

/-- The result of an operation that is not folded. -/
def deriveSignal (operation : Gate.Operation) (a b : Signal) (value? : Option Element) :
    Wiring Signal :=
  modifyGet fun
    | [] =>
      match value? with
      | some value => (.constant value, [])
      | none => (.variable .detached, [])
    | run :: outer =>
      let (v, run) := run.allocate value?
      (.variable v, run.record (.derived operation a.wire b.wire v.index) :: outer)

namespace Signal

/-- The value of an operation, if both operands are known. -/
def combined? (operation : Gate.Operation) (a b : Signal) : Option Element :=
  match a.known?, b.known? with
  | some x, some y => some (operation.apply x y)
  | _, _ => none

/-- Applies an operation, folding constants. -/
def combine (operation : Gate.Operation) (a b : Signal) : Wiring Signal :=
  match a, b with
  | .constant x, .constant y => return .constant (operation.apply x y)
  | _, _ => deriveSignal operation a b (combined? operation a b)

/-- The sum. -/
def add (a b : Signal) : Wiring Signal := combine .add a b

/-- The difference. -/
def sub (a b : Signal) : Wiring Signal := combine .sub a b

/-- The product. -/
def mul (a b : Signal) : Wiring Signal := combine .mul a b

/-- The negation, as a difference from zero. -/
def neg (a : Signal) : Wiring Signal := sub zero a

/-- The square. -/
def square (a : Signal) : Wiring Signal := mul a a

/-- The bit that tells whether two signals are equal. -/
def equals (a b : Signal) : Wiring Bit := return ⟨← combine .isEqual a b⟩

/-- Asserts that two signals are equal. -/
def assertEqual (a b : Signal) : Circuit Unit := do
  match a.known?, b.known? with
  | some x, some y => if x ≠ y then throw (.unequal x y)
  | _, _ => pure ()
  if !(a.isConstant && b.isConstant) then constrain (.assertEqual a.wire b.wire)

/-- Asserts that a signal is zero or one. -/
def assertBoolean (a : Signal) : Circuit Unit := do
  match a.known? with
  | some x => if !x.isBoolean then throw (.notBoolean x)
  | none => pure ()
  if !a.isConstant then constrain (.boolean a.wire)

/-- Asserts that a signal is below `2 ^ bits`. -/
def assertRange (a : Signal) (bits : Nat) : Circuit Unit := do
  match a.known? with
  | some x => if !x.fits bits then throw (.outOfRange x bits)
  | none => pure ()
  if !a.isConstant then constrain (.range a.wire bits)

end Signal

namespace Bit

/-- The complement, as a difference from one. -/
def not (a : Bit) : Wiring Bit := return ⟨← Signal.sub Signal.one a.signal⟩

/-- The conjunction, as a product. -/
def and (a b : Bit) : Wiring Bit := return ⟨← a.signal.mul b.signal⟩

/-- The disjunction, as the complement of the conjunction of the complements. -/
def or (a b : Bit) : Wiring Bit := do
  let notA ← a.not
  let notB ← b.not
  (← notA.and notB).not

/-- The bit that tells whether two bits are equal. -/
def equals (a b : Bit) : Wiring Bit := a.signal.equals b.signal

/-- Asserts that two bits are equal. -/
def assertEqual (a b : Bit) : Circuit Unit := a.signal.assertEqual b.signal

/-- Asserts that a bit is one. -/
def assertTrue (a : Bit) : Circuit Unit := a.signal.assertEqual Signal.one

end Bit

end TypedCircuit
