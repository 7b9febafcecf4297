import Mathlib.Tactic.Ring
import TypedCircuit.Proofs.Field.Residues

/-!
# Arithmetic in words

Operations on elements are written with numbers that have no bound, followed by reduction. A
machine stores an element in a word of 64 bits and has words of 128 bits for what comes up on the
way. The canonical numbers lie close below `2 ^ 64`: a sum of two of them needs a bit more than a
word has, a difference may be negative, and a product needs nearly all of the 128 bits.

This module carries out the operations step by step in words. Every step that could leave its word
is checked: it gives the exact result of the operation on integers, or nothing (`fit`). So what is
proved of an operation in words is not only which residue it comes to, but that it comes to one,
and then no step on the way has lost anything.

Powers are computed by a loop over the bits of the exponent, the last bit first. What the loop
keeps is the product of the accumulator and the power that is still left (`mul_pow_halve`). When no
bit is left, the accumulator is the result.

## Main results

* `fit_eq_some_iff` — a step gives its exact result or nothing.
* `Word.powLoop_toWord` — the loop multiplies its accumulator by the power.
* `Word.arithmetic_exact` — every operation in words comes to an end, is the operation on elements
  and leaves what the operation on integers leaves.
-/

namespace TypedCircuit

/-- A 64-bit word. -/
abbrev Word := BitVec 64

/-- A 128-bit word, for results on the way. -/
abbrev DoubleWord := BitVec 128

/-! ## Steps that are checked -/

/-- An integer in `w` bits; nothing if it is negative or needs more bits. -/
def fit (w : Nat) (n : ℤ) : Option (BitVec w) :=
  if 0 ≤ n ∧ n < 2 ^ w then some (BitVec.ofInt w n) else none

section Checked

variable {w : Nat} {x y z : BitVec w}

/-- An integer fits if and only if a word has its value, and then it is that word. -/
theorem fit_eq_some_iff {n : ℤ} : fit w n = some z ↔ (z.toNat : ℤ) = n := by
  have hz : (z.toNat : ℤ) < 2 ^ w := by exact_mod_cast z.isLt
  unfold fit
  split
  · next h =>
      have hMod : n % (2 ^ w : Nat) = n := Int.emod_eq_of_lt h.1 (by exact_mod_cast h.2)
      rw [Option.some_inj, BitVec.toNat_eq, BitVec.toNat_ofInt, hMod]
      omega
  · next h => exact iff_of_false nofun fun hEq => h (by omega)

theorem exists_fit {n : Nat} (h : n < 2 ^ w) : ∃ z, fit w n = some z ∧ z.toNat = n := by
  have hNat : (BitVec.ofNat w n).toNat = n := by rw [BitVec.toNat_ofNat, Nat.mod_eq_of_lt h]
  exact ⟨BitVec.ofNat w n, fit_eq_some_iff.2 (congrArg Int.ofNat hNat), hNat⟩

namespace Checked

/-- The exact sum, if it fits. -/
def add (x y : BitVec w) : Option (BitVec w) := fit w (x.toNat + y.toNat)

/-- The exact difference, if it fits. -/
def sub (x y : BitVec w) : Option (BitVec w) := fit w (x.toNat - y.toNat)

/-- The exact product, if it fits. -/
def mul (x y : BitVec w) : Option (BitVec w) := fit w (x.toNat * y.toNat)

/-- The word with the value of a double word, if there is one. -/
def narrow (x : DoubleWord) : Option Word := fit 64 x.toNat

theorem exists_add (h : x.toNat + y.toNat < 2 ^ w) :
    ∃ z, add x y = some z ∧ z.toNat = x.toNat + y.toNat := exists_fit h

theorem exists_sub (h : y.toNat ≤ x.toNat) :
    ∃ z, sub x y = some z ∧ z.toNat = x.toNat - y.toNat := by
  have hFits : x.toNat - y.toNat < 2 ^ w := Nat.lt_of_le_of_lt (Nat.sub_le _ _) x.isLt
  rw [sub, ← Int.ofNat_sub h]
  exact exists_fit hFits

theorem exists_mul (h : x.toNat * y.toNat < 2 ^ w) :
    ∃ z, mul x y = some z ∧ z.toNat = x.toNat * y.toNat := by
  rw [mul, ← Int.natCast_mul]
  exact exists_fit h

end Checked

end Checked

/-! ## Operations in words -/

namespace Word

/-- The size of the field. -/
def modulus : Word := 0xFFFFFFFF00000001

/-- The double word with the value of a word. -/
def widen (x : Word) : DoubleWord := x.setWidth 128

/-- The residue of a word, by one subtraction at most. -/
def reduce (n : Word) : Option Word :=
  if modulus ≤ n then Checked.sub n modulus else some n

/-- The residue of a double word. -/
def reduceDouble (n : DoubleWord) : Option Word := Checked.narrow (n % widen modulus)

/-- The sum of two residues. -/
def addMod (x y : Word) : Option Word :=
  (Checked.add (widen x) (widen y)).bind reduceDouble

/-- The difference of two residues; the first one is raised by the modulus before the second one is
taken away. -/
def subMod (x y : Word) : Option Word := do
  let raised ← Checked.add (widen x) (widen modulus)
  (Checked.sub raised (widen y)).bind reduceDouble

/-- The product of two residues. -/
def mulMod (x y : Word) : Option Word :=
  (Checked.mul (widen x) (widen y)).bind reduceDouble

/-- The negative of a residue. -/
def negMod (x : Word) : Option Word :=
  if x = 0 then some x else Checked.sub modulus x

/-- The accumulator with the base taken in, if the last bit of the exponent is set. -/
def absorb (acc base exponent : Word) : Option Word :=
  if exponent &&& 1 = 1 then mulMod acc base else some acc

/-- The loop that computes a power: the accumulator absorbs the base, the base is squared, and the
last bit of the exponent is dropped. -/
def powLoop (acc base exponent : Word) : Option Word :=
  if exponent = 0 then some acc
  else do
    let product ← absorb acc base exponent
    let square ← mulMod base base
    powLoop product square (exponent >>> 1)
termination_by exponent.toNat
decreasing_by
  have hPos : exponent.toNat ≠ 0 := fun h => ‹¬ exponent = 0› (BitVec.eq_of_toNat_eq h)
  rw [BitVec.toNat_ushiftRight, Nat.shiftRight_eq_div_pow]
  omega

/-- The power of a residue. -/
def powMod (x exponent : Word) : Option Word := powLoop 1 x exponent

/-- The residue of `2 ^ bits`. -/
def twoPowMod (bits : BitVec 32) : Option Word := powMod 2 (bits.setWidth 64)

theorem toNat_modulus : modulus.toNat = TypedCircuit.modulus := rfl

theorem toNat_widen_modulus : (widen modulus).toNat = TypedCircuit.modulus := rfl

/-- Whether the last bit of a word is set. -/
theorem and_one_eq_one_iff {e : Word} : e &&& 1 = 1 ↔ e.toNat % 2 = 1 := by
  rw [BitVec.toNat_eq, BitVec.toNat_and]
  exact iff_of_eq (congrArg (· = 1) (Nat.and_one_is_mod _))

/-- Dropping the last bit of a word halves it. -/
theorem toNat_shiftRight_one (e : Word) : (e >>> 1).toNat = e.toNat / 2 := by
  rw [BitVec.toNat_ushiftRight, Nat.shiftRight_eq_div_pow, Nat.pow_one]

end Word

/-! ## Elements in words -/

namespace Element

theorem toNat_lt_word (x : Element) : x.toNat < 2 ^ 64 :=
  Nat.lt_trans x.toNat_lt (by decide)

/-- The word that stores an element. As an element runs through all elements, its word runs through
all words below the modulus. -/
def toWord (x : Element) : Word := BitVec.ofNat 64 x.toNat

@[simp] theorem toNat_toWord (x : Element) : x.toWord.toNat = x.toNat :=
  Nat.mod_eq_of_lt x.toNat_lt_word

@[simp] theorem toNat_widen_toWord (x : Element) : (Word.widen x.toWord).toNat = x.toNat := by
  rw [Word.widen, BitVec.toNat_setWidth, toNat_toWord]
  exact Nat.mod_eq_of_lt (Nat.lt_trans x.toNat_lt_word (by decide))

/-- A word stores an element if and only if it has the number of the element. -/
theorem eq_toWord_iff {n : Word} {x : Element} : n = x.toWord ↔ n.toNat = x.toNat := by
  rw [← toNat_toWord x]
  exact BitVec.toNat_eq

theorem toWord_eq_zero_iff {x : Element} : x.toWord = 0 ↔ x.toNat = 0 := by
  rw [← toNat_toWord x]
  exact BitVec.toNat_eq

theorem add_eq_ofNat (x y : Element) : x + y = ofNat (x.toNat + y.toNat) := rfl

theorem sub_eq_ofNat (x y : Element) : x - y = ofNat (x.toNat + modulus - y.toNat) := rfl

theorem mul_eq_ofNat (x y : Element) : x * y = ofNat (x.toNat * y.toNat) := rfl

theorem mul_pow_zero (acc x : Element) : acc * x.pow 0 = acc := by
  rw [← residue_inj, residue_mul, residue_pow, pow_zero, mul_one]

/-- What the loop keeps: if the last bit of the exponent is set, the base goes over to the
accumulator, and the square of the base has half of the exponent left. -/
theorem mul_pow_halve (acc x : Element) (e : Nat) :
    acc * x.pow e = (if e % 2 = 1 then acc * x else acc) * (x * x).pow (e / 2) := by
  have hPow : x.residue ^ e = x.residue ^ (e % 2) * (x.residue * x.residue) ^ (e / 2) := by
    rw [← pow_two, ← pow_mul, ← pow_add, Nat.mod_add_div]
  apply residue_injective
  by_cases hOdd : e % 2 = 1
  · rw [if_pos hOdd]
    simp only [residue_mul, residue_pow, hPow, hOdd]
    ring
  · have hEven : e % 2 = 0 := by omega
    rw [if_neg hOdd]
    simp only [residue_mul, residue_pow, hPow, hEven]
    ring

end Element

namespace Word

open Element

theorem reduce_eq (n : Word) : reduce n = some (Element.ofNat n.toNat).toWord := by
  have hn : n.toNat < 2 ^ 64 := n.isLt
  have hModulus : TypedCircuit.modulus = 18446744069414584321 := rfl
  unfold reduce
  split
  · next h =>
      have hLe : modulus.toNat ≤ n.toNat := BitVec.le_def.1 h
      obtain ⟨z, hz, hNat⟩ := Checked.exists_sub hLe
      rw [hz, Option.some_inj, eq_toWord_iff, hNat, toNat_ofNat, toNat_modulus]
      rw [toNat_modulus] at hLe
      rw [Nat.mod_eq_sub_mod hLe, Nat.mod_eq_of_lt (by omega)]
  · next h =>
      have hLt : n.toNat < TypedCircuit.modulus := Nat.not_le.1 fun hLe => h (BitVec.le_def.2 hLe)
      rw [Option.some_inj, eq_toWord_iff, toNat_ofNat, Nat.mod_eq_of_lt hLt]

theorem reduceDouble_eq (n : DoubleWord) :
    reduceDouble n = some (Element.ofNat n.toNat).toWord := by
  rw [reduceDouble, Checked.narrow, fit_eq_some_iff]
  rw [toNat_toWord, toNat_ofNat, BitVec.toNat_umod, toNat_widen_modulus]

/-- What has not left its double word is reduced to its residue. -/
theorem bind_reduceDouble {result : Option DoubleWord} {n : Nat}
    (h : ∃ m, result = some m ∧ m.toNat = n) :
    result.bind reduceDouble = some (Element.ofNat n).toWord := by
  obtain ⟨m, rfl, rfl⟩ := h
  rw [Option.bind_some, reduceDouble_eq]

theorem addMod_toWord (x y : Element) : addMod x.toWord y.toWord = some (x + y).toWord := by
  have hx := x.toNat_lt_word
  have hy := y.toNat_lt_word
  have hFits : (widen x.toWord).toNat + (widen y.toWord).toNat < 2 ^ 128 := by
    simp only [toNat_widen_toWord]
    omega
  have hSum := Checked.exists_add hFits
  simp only [toNat_widen_toWord] at hSum
  rw [addMod, add_eq_ofNat]
  exact bind_reduceDouble hSum

theorem subMod_toWord (x y : Element) : subMod x.toWord y.toWord = some (x - y).toWord := by
  have hx := x.toNat_lt_word
  have hy := y.toNat_lt
  have hFits : (widen x.toWord).toNat + (widen modulus).toNat < 2 ^ 128 := by
    simp only [toNat_widen_toWord, toNat_widen_modulus, TypedCircuit.modulus]
    omega
  obtain ⟨raised, hRaised, hNat⟩ := Checked.exists_add hFits
  simp only [toNat_widen_toWord, toNat_widen_modulus] at hNat
  -- What is taken away is less than the modulus, which has been added before.
  have hLe : (widen y.toWord).toNat ≤ raised.toNat := by
    rw [toNat_widen_toWord, hNat]
    omega
  have hDifference := Checked.exists_sub hLe
  simp only [toNat_widen_toWord, hNat] at hDifference
  rw [subMod, hRaised, Option.bind_eq_bind, Option.bind_some, sub_eq_ofNat]
  exact bind_reduceDouble hDifference

theorem mulMod_toWord (x y : Element) : mulMod x.toWord y.toWord = some (x * y).toWord := by
  have hFits : (widen x.toWord).toNat * (widen y.toWord).toNat < 2 ^ 128 := by
    simp only [toNat_widen_toWord]
    calc x.toNat * y.toNat < 2 ^ 64 * 2 ^ 64 := Nat.mul_lt_mul'' x.toNat_lt_word y.toNat_lt_word
      _ = 2 ^ 128 := by decide
  have hProduct := Checked.exists_mul hFits
  simp only [toNat_widen_toWord] at hProduct
  rw [mulMod, mul_eq_ofNat]
  exact bind_reduceDouble hProduct

theorem negMod_toWord (x : Element) : negMod x.toWord = some (-x).toWord := by
  have hx := x.toNat_lt
  unfold negMod
  by_cases hZero : x.toNat = 0
  · rw [if_pos (toWord_eq_zero_iff.2 hZero), Option.some_inj, eq_toWord_iff, toNat_toWord,
      toNat_neg, hZero, Nat.sub_zero, Nat.mod_self]
  · have hLe : x.toWord.toNat ≤ modulus.toNat := by
      rw [toNat_toWord, toNat_modulus]
      omega
    obtain ⟨z, hz, hNat⟩ := Checked.exists_sub hLe
    rw [if_neg fun h => hZero (toWord_eq_zero_iff.1 h), hz, Option.some_inj, eq_toWord_iff, hNat,
      toNat_toWord, toNat_modulus, toNat_neg]
    exact (Nat.mod_eq_of_lt (by omega)).symm

/-! ## The loop -/

theorem absorb_toWord (acc base : Element) (e : Word) :
    absorb acc.toWord base.toWord e =
      some (if e.toNat % 2 = 1 then acc * base else acc).toWord := by
  unfold absorb
  simp only [and_one_eq_one_iff, mulMod_toWord]
  split <;> rfl

/-- The loop multiplies its accumulator by the power of its base. -/
theorem powLoop_toWord (acc base : Element) (e : Word) :
    powLoop acc.toWord base.toWord e = some (acc * base.pow e.toNat).toWord := by
  induction hSize : e.toNat using Nat.strongRecOn generalizing acc base e with
  | ind n ih =>
      subst hSize
      unfold powLoop
      by_cases hZero : e = 0
      · subst hZero
        rw [if_pos rfl]
        exact congrArg (fun x => some (toWord x)) (mul_pow_zero acc base).symm
      · -- One round leaves half of the exponent, with the accumulator and the base it has made.
        have hPos : e.toNat ≠ 0 := fun h => hZero (BitVec.eq_of_toNat_eq h)
        have hHalf := toNat_shiftRight_one e
        have hRest := ih (e >>> 1).toNat (by omega)
          (if e.toNat % 2 = 1 then acc * base else acc) (base * base) (e >>> 1) rfl
        rw [if_neg hZero, absorb_toWord, mulMod_toWord, mul_pow_halve, ← hHalf]
        exact hRest

theorem powMod_toWord (x : Element) (e : Word) :
    powMod x.toWord e = some (x.pow e.toNat).toWord := by
  have hOne : (1 : Element) * x.pow e.toNat = x.pow e.toNat := by
    rw [← residue_inj, residue_mul, residue_one, one_mul]
  rw [← hOne]
  exact powLoop_toWord 1 x e

theorem twoPowMod_toWord (bits : BitVec 32) :
    twoPowMod bits = some (Element.twoPow bits.toNat).toWord := by
  have hBits : (bits.setWidth 64).toNat = bits.toNat := by
    rw [BitVec.toNat_setWidth]
    exact Nat.mod_eq_of_lt (Nat.lt_trans bits.isLt (by decide))
  rw [Element.twoPow, ← hBits]
  exact powMod_toWord 2 (bits.setWidth 64)

/-! ## Exactness -/

/-- A computation in words comes to an end without losing anything: its result stores the element
`x`, is canonical, and is what the integer `n` leaves. -/
def Computes (result : Option Word) (x : Element) (n : ℤ) : Prop :=
  ∃ z : Word, result = some z ∧ z.toNat = x.toNat ∧ z.toNat < TypedCircuit.modulus ∧
    (z.toNat : ℤ) = n % TypedCircuit.modulus

theorem Computes.of_toWord {result : Option Word} {x : Element} {n : ℤ}
    (hWord : result = some x.toWord) (hClass : x.residue = n) : Computes result x n := by
  have hExact : (x.toNat : ℤ) = n % TypedCircuit.modulus := toNat_eq_emod_iff.2 hClass
  refine ⟨x.toWord, hWord, toNat_toWord x, ?_, ?_⟩
  · rw [toNat_toWord]
    exact x.toNat_lt
  · rw [toNat_toWord]
    exact hExact

/-- Every operation in words comes to an end within its words, is the operation on elements, and
leaves what the operation on integers leaves. -/
theorem arithmetic_exact (n : Word) (m : DoubleWord) (x y : Element) (e : Word) (bits : BitVec 32) :
    Computes (reduce n) (.ofNat n.toNat) n.toNat ∧
      Computes (reduceDouble m) (.ofNat m.toNat) m.toNat ∧
      Computes (addMod x.toWord y.toWord) (x + y) (x.toNat + y.toNat) ∧
      Computes (subMod x.toWord y.toWord) (x - y) (x.toNat - y.toNat) ∧
      Computes (mulMod x.toWord y.toWord) (x * y) (x.toNat * y.toNat) ∧
      Computes (negMod x.toWord) (-x) (-x.toNat) ∧
      Computes (powMod x.toWord e) (x.pow e.toNat) (x.toNat ^ e.toNat) ∧
      Computes (twoPowMod bits) (.twoPow bits.toNat) (2 ^ bits.toNat) :=
  ⟨.of_toWord (reduce_eq n) (by simp), .of_toWord (reduceDouble_eq m) (by simp),
    .of_toWord (addMod_toWord x y) (by simp), .of_toWord (subMod_toWord x y) (by simp),
    .of_toWord (mulMod_toWord x y) (by simp), .of_toWord (negMod_toWord x) (by simp),
    .of_toWord (powMod_toWord x e) (by simp), .of_toWord (twoPowMod_toWord bits) (by simp)⟩

/-- The sum of the two greatest residues does not fit a word. -/
example : Checked.add modulus (modulus - 2) = none ∧
    addMod (modulus - 1) (modulus - 1) = some (modulus - 2) := by decide

end Word

end TypedCircuit
