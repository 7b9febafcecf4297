/-!
# Elements of the scalar field

Everything a circuit computes with is an element of the prime field of size
`modulus = 2 ^ 64 - 2 ^ 32 + 1`. An `Element` is the canonical residue, a number
below the modulus together with the proof that it is, so two elements are equal
exactly when their numbers are, and no operation can leave the range.

The modulus lies between `2 ^ 63` and `2 ^ 64`. Two facts about that position are
used elsewhere: every 64-bit word is less than twice the modulus, so one
subtraction reduces it, and every 63-bit word is its own residue.

Elements are written as decimal numbers. Reading is strict: a word that is not
below the modulus is refused and not reduced, so each text has one meaning.

## Main results

* `toNat_ofNat`, `toNat_add`, `toNat_sub`, `toNat_mul`, `toNat_neg` — each
  operation is the integer operation followed by reduction.
* `toNat_pow` — repeated squaring computes the power.
-/

namespace TypedCircuit

/-- The size of the scalar field, `2 ^ 64 - 2 ^ 32 + 1`. -/
def modulus : Nat := 0xFFFFFFFF00000001

/-- The number of 64-bit words, `2 ^ 64`. -/
def wordBound : Nat := 0x10000000000000000

/-- A canonical residue modulo `modulus`. -/
structure Element where
  /-- The residue as a number. -/
  toNat : Nat
  /-- Residues are canonical. -/
  toNat_lt : toNat < modulus
deriving DecidableEq

namespace Element

theorem modulus_pos : 0 < modulus := by decide

@[ext] theorem ext {x y : Element} (h : x.toNat = y.toNat) : x = y := by
  cases x; cases y; cases h; rfl

/-- The residue of a number. -/
def ofNat (n : Nat) : Element := ⟨n % modulus, Nat.mod_lt n modulus_pos⟩

instance (n : Nat) : OfNat Element n := ⟨ofNat n⟩

instance : Inhabited Element := ⟨0⟩

/-- One for true, zero for false. -/
def ofBool (b : Bool) : Element := if b then 1 else 0

instance : Add Element := ⟨fun x y => ofNat (x.toNat + y.toNat)⟩

instance : Sub Element := ⟨fun x y => ofNat (x.toNat + modulus - y.toNat)⟩

instance : Mul Element := ⟨fun x y => ofNat (x.toNat * y.toNat)⟩

instance : Neg Element :=
  ⟨fun x => if h : x.toNat = 0 then x else ⟨modulus - x.toNat, by have := x.toNat_lt; omega⟩⟩

/-- The power with a natural exponent, by repeated squaring. -/
def pow (x : Element) (e : Nat) : Element :=
  if e = 0 then 1
  else if e % 2 = 1 then pow (x * x) (e / 2) * x
  else pow (x * x) (e / 2)
termination_by e
decreasing_by all_goals omega

/-- The power `2 ^ bits`. -/
def twoPow (bits : Nat) : Element := pow 2 bits

/-- Whether the element is zero. -/
def isZero (x : Element) : Bool := x.toNat == 0

/-- The multiplicative inverse of a non-zero element, by raising it to `modulus - 2`. -/
def inverse? (x : Element) : Option Element :=
  if x.isZero then none else some (x.pow (modulus - 2))

/-- The order of the canonical residues. -/
def compare (x y : Element) : Ordering := Ord.compare x.toNat y.toNat

/-! ## Reduction -/

@[simp] theorem toNat_ofNat (n : Nat) : (ofNat n).toNat = n % modulus := rfl

@[simp] theorem toNat_add (x y : Element) :
    (x + y).toNat = (x.toNat + y.toNat) % modulus := rfl

@[simp] theorem toNat_sub (x y : Element) :
    (x - y).toNat = (x.toNat + modulus - y.toNat) % modulus := rfl

@[simp] theorem toNat_mul (x y : Element) :
    (x * y).toNat = x.toNat * y.toNat % modulus := rfl

theorem toNat_neg (x : Element) : (-x).toNat = (modulus - x.toNat) % modulus := by
  have hx := x.toNat_lt
  by_cases h : x.toNat = 0
  · show (if h : x.toNat = 0 then x else _).toNat = _
    simp [h]
  · show (if h : x.toNat = 0 then x else _).toNat = _
    rw [dif_neg h]
    show modulus - x.toNat = _
    exact (Nat.mod_eq_of_lt (by omega)).symm

theorem toNat_pow (x : Element) (e : Nat) :
    (x.pow e).toNat = Nat.pow x.toNat e % modulus := by
  show (x.pow e).toNat = x.toNat ^ e % modulus
  induction e using Nat.strongRecOn generalizing x with
  | ind e ih =>
    unfold pow
    by_cases h : e = 0
    · subst h; rfl
    · have hHalf := ih (e / 2) (by omega) (x * x)
      rw [if_neg h]
      by_cases hOdd : e % 2 = 1
      · rw [if_pos hOdd, toNat_mul, hHalf, toNat_mul, ← Nat.pow_mod, ← Nat.pow_two,
          ← Nat.pow_mul, Nat.mod_mul_mod, ← Nat.pow_succ]
        congr 2
        omega
      · rw [if_neg hOdd, hHalf, toNat_mul, ← Nat.pow_mod, ← Nat.pow_two, ← Nat.pow_mul]
        congr 2
        omega

/-! ## Decimal text -/

/-- The decimal digits of the canonical residue. -/
def text (x : Element) : String := toString x.toNat

/-- Why a literal names no element. -/
inductive LiteralError where
  /-- The text is no decimal 64-bit word. -/
  | malformed
  /-- The word is not below the modulus. -/
  | notCanonical
deriving DecidableEq

/-- The number written by a non-empty list of decimal digits. -/
def digitsValue? : List Char → Option Nat
  | [] => none
  | cs =>
    if cs.all Char.isDigit then
      some (cs.foldl (fun n c => 10 * n + (c.toNat - '0'.toNat)) 0)
    else none

/-- The 64-bit word written by decimal digits after at most one plus sign. -/
def word? (s : String) : Option Nat :=
  let digits := match s.toList with
    | '+' :: cs => cs
    | cs => cs
  (digitsValue? digits).filter (· < wordBound)

/-- Reads a literal; the word it writes has to be below the modulus. -/
def parse (s : String) : Except LiteralError Element :=
  match word? s with
  | none => .error .malformed
  | some n => if h : n < modulus then .ok ⟨n, h⟩ else .error .notCanonical

/-! ## Sampling -/

/--
A uniformly random element from a supply of 64-bit words: words that are not below
the modulus are skipped. Returns the words left over and how many were used; after
the supply come zeros.
-/
def sample : List Nat → Element × List Nat × Nat
  | [] => (0, [], 1)
  | w :: ws =>
    if h : w < modulus then (⟨w, h⟩, ws, 1)
    else
      let (x, rest, used) := sample ws
      (x, rest, used + 1)

end Element

end TypedCircuit
