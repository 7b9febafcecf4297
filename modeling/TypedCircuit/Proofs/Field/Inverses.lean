import Mathlib.FieldTheory.Finite.Basic
import Mathlib.NumberTheory.LucasPrimality
import Mathlib.Tactic.NormNum.DivMod
import Mathlib.Tactic.NormNum.Prime
import Mathlib.Tactic.ReduceModChar
import TypedCircuit.Proofs.Field.Residues

/-!
# Inverses

The size of the field is prime, by Lucas's test with the residue seven. The prime factors of
`modulus - 1` are two and the five known Fermat primes. Seven has the power one at `modulus - 1`,
and not at `modulus - 1` divided by one of them, so it has as many powers as there are numbers
between zero and the modulus. All of them are units, which a composite modulus does not allow.

Hence the classes of elements form a field. The power with the exponent `modulus - 2` is the
inverse of every element other than zero, it is the only one, and a product is zero only if a
factor is.

## Main results

* `prime_modulus` — the size of the field is prime.
* `Element.mul_pow_modulus_sub_two` — the power is an inverse.
* `Element.inverse?_unique` — every element but zero has one inverse, which is the one computed.
-/

namespace TypedCircuit

/-! ## The size of the field -/

theorem modulus_sub_one : modulus - 1 = 2 ^ 32 * (3 * (5 * (17 * (257 * 65537)))) := by decide

/-- The prime factors of `modulus - 1`. -/
theorem factor_modulus_sub_one {q : Nat} (hq : q.Prime) (hDvd : q ∣ modulus - 1) :
    q = 2 ∨ q = 3 ∨ q = 5 ∨ q = 17 ∨ q = 257 ∨ q = 65537 := by
  have hFactor {p : Nat} (hp : p.Prime) : q ∣ p ↔ q = p := Nat.prime_dvd_prime_iff_eq hq hp
  rw [modulus_sub_one, hq.dvd_mul, hq.dvd_mul, hq.dvd_mul, hq.dvd_mul, hq.dvd_mul] at hDvd
  rw [hq.prime.dvd_pow_iff_dvd (by decide), hFactor (by norm_num : Nat.Prime 2),
    hFactor (by norm_num : Nat.Prime 3), hFactor (by norm_num : Nat.Prime 5),
    hFactor (by norm_num : Nat.Prime 17), hFactor (by norm_num : Nat.Prime 257),
    hFactor (by norm_num : Nat.Prime 65537)] at hDvd
  exact hDvd

theorem seven_pow_modulus_sub_one : (7 : ZMod modulus) ^ (modulus - 1) = 1 := by
  unfold modulus
  norm_num1
  reduce_mod_char

/-- Seven has no power one at an exponent that a prime factor of `modulus - 1` is left out of. -/
theorem seven_pow_ne_one {q : Nat} (hq : q.Prime) (hDvd : q ∣ modulus - 1) :
    (7 : ZMod modulus) ^ ((modulus - 1) / q) ≠ 1 := by
  rcases factor_modulus_sub_one hq hDvd with rfl | rfl | rfl | rfl | rfl | rfl
  -- Each factor leaves a power with a numeral for its exponent, which is computed by squaring.
  all_goals
    unfold modulus
    norm_num1
    reduce_mod_char
    decide

/-- The size of the field is prime. -/
theorem prime_modulus : modulus.Prime :=
  lucas_primality modulus 7 seven_pow_modulus_sub_one fun _ => seven_pow_ne_one

-- The field structure on the classes stays in this module, so that others see one ring of classes.
local instance : Fact modulus.Prime := ⟨prime_modulus⟩

/-! ## Inverses of elements -/

namespace Element

variable {x y z : Element}

theorem isZero_iff : x.isZero = true ↔ x = 0 := by
  rw [isZero, beq_iff_eq]
  exact ⟨fun h => Element.ext h, fun h => congrArg toNat h⟩

theorem residue_eq_zero_iff : x.residue = 0 ↔ x = 0 := by
  rw [← residue_zero, residue_inj]

theorem residue_ne_zero (hx : x ≠ 0) : x.residue ≠ 0 := mt residue_eq_zero_iff.1 hx

/-- A product is zero if and only if a factor is. -/
theorem mul_eq_zero_iff : x * y = 0 ↔ x = 0 ∨ y = 0 := by
  rw [← residue_eq_zero_iff, residue_mul, mul_eq_zero, residue_eq_zero_iff, residue_eq_zero_iff]

/-- An element other than zero can be cancelled. -/
protected theorem mul_left_cancel (hx : x ≠ 0) (h : x * y = x * z) : y = z := by
  apply residue_injective
  apply mul_left_cancel₀ (residue_ne_zero hx)
  rw [← residue_mul, ← residue_mul, h]

/-- The power with the exponent `modulus - 2` is an inverse, by Fermat's little theorem. -/
theorem mul_pow_modulus_sub_two (hx : x ≠ 0) : x * x.pow (modulus - 2) = 1 := by
  apply residue_injective
  calc (x * x.pow (modulus - 2)).residue
      = x.residue * x.residue ^ (modulus - 2) := by rw [residue_mul, residue_pow]
    _ = x.residue ^ (modulus - 1) := (pow_succ' _ _).symm
    _ = 1 := ZMod.pow_card_sub_one_eq_one (residue_ne_zero hx)
    _ = (1 : Element).residue := residue_one.symm

theorem inverse?_zero : (0 : Element).inverse? = none := if_pos rfl

theorem inverse?_of_ne_zero (hx : x ≠ 0) : x.inverse? = some (x.pow (modulus - 2)) :=
  if_neg fun h => hx (isZero_iff.1 h)

/-- Every element other than zero has exactly one inverse among the canonical numbers, and it is
the one that is computed. Zero has none, and a product is zero only if a factor is. -/
theorem inverse?_unique :
    (∀ x : Element, x ≠ 0 → ∃ y, x.inverse? = some y ∧ x * y = 1 ∧ y.toNat < modulus ∧
      ∀ n < modulus, x.toNat * n % modulus = 1 → n = y.toNat) ∧
    (0 : Element).inverse? = none ∧
    ∀ x y : Element, x * y = 0 ↔ x = 0 ∨ y = 0 := by
  refine ⟨fun x hx => ?_, inverse?_zero, fun x y => mul_eq_zero_iff⟩
  have hInverse := mul_pow_modulus_sub_two hx
  refine ⟨x.pow (modulus - 2), inverse?_of_ne_zero hx, hInverse, toNat_lt _, fun n hn hOne => ?_⟩
  have hProduct : x * ⟨n, hn⟩ = 1 := Element.ext hOne
  exact congrArg toNat (Element.mul_left_cancel hx (hProduct.trans hInverse.symm))

/-- The inverse of seven, found by what gives one with seven and not by computing a power. -/
theorem inverse?_unique_seven :
    (7 : Element) ≠ 0 ∧ (7 : Element).inverse? = some 2635249152773512046 := by
  have hSeven : (7 : Element) ≠ 0 := by decide
  obtain ⟨y, hInverse, -, -, hUnique⟩ := inverse?_unique.1 7 hSeven
  have hNumber : 2635249152773512046 = y.toNat := hUnique _ (by decide) (by decide)
  have hElement : y = 2635249152773512046 := Element.ext hNumber.symm
  exact ⟨hSeven, hInverse.trans (congrArg some hElement)⟩

end Element

end TypedCircuit
