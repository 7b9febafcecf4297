import Mathlib.Data.ZMod.Basic
import TypedCircuit.Element

/-!
# Residue classes of elements

An element is the canonical number of a residue class modulo `modulus`, and each operation on
elements is the operation on the classes. Statements about results of elements are proved in the
ring of classes, where the laws of arithmetic hold without side conditions.

A canonical number is told apart from every other number by its class: so what an integer leaves
modulo `modulus` is found by comparing classes.

## Main results

* `Element.residue_inj` — the class names the element.
* `Element.residue_add`, `Element.residue_sub`, `Element.residue_mul`, `Element.residue_neg`,
  `Element.residue_pow` — operations on elements are operations on classes.
* `Element.toNat_eq_emod_iff` — the element of an integer.
-/

namespace TypedCircuit.Element

/-- The residue class of an element. -/
def residue (x : Element) : ZMod modulus := x.toNat

@[simp] theorem natCast_toNat (x : Element) : (x.toNat : ZMod modulus) = x.residue := rfl

theorem residue_injective : Function.Injective residue := by
  intro x y h
  have hMod : x.toNat % modulus = y.toNat % modulus := (ZMod.natCast_eq_natCast_iff' _ _ _).1 h
  rw [Nat.mod_eq_of_lt x.toNat_lt, Nat.mod_eq_of_lt y.toNat_lt] at hMod
  exact Element.ext hMod

theorem residue_inj {x y : Element} : x.residue = y.residue ↔ x = y := residue_injective.eq_iff

/-- An integer leaves the number of an element if and only if it lies in the class of it. -/
theorem toNat_eq_emod_iff {x : Element} {n : ℤ} :
    (x.toNat : ℤ) = n % modulus ↔ x.residue = n := by
  have hx : (x.toNat : ℤ) % modulus = x.toNat :=
    Int.emod_eq_of_lt (Int.natCast_nonneg _) (Int.ofNat_lt.2 x.toNat_lt)
  have hCast : x.residue = ((x.toNat : ℤ) : ZMod modulus) := (Int.cast_natCast _).symm
  rw [hCast, ZMod.intCast_eq_intCast_iff', hx]

/-! ## Operations -/

@[simp] theorem residue_ofNat (n : Nat) : (ofNat n).residue = n := ZMod.natCast_mod n modulus

@[simp] theorem residue_zero : (0 : Element).residue = 0 := (residue_ofNat 0).trans Nat.cast_zero

@[simp] theorem residue_one : (1 : Element).residue = 1 := (residue_ofNat 1).trans Nat.cast_one

@[simp] theorem residue_add (x y : Element) : (x + y).residue = x.residue + y.residue :=
  (residue_ofNat _).trans (Nat.cast_add _ _)

@[simp] theorem residue_sub (x y : Element) : (x - y).residue = x.residue - y.residue := by
  have hy : y.toNat ≤ x.toNat + modulus := by have := y.toNat_lt; omega
  calc (x - y).residue = ((x.toNat + modulus - y.toNat : Nat) : ZMod modulus) := residue_ofNat _
    _ = x.residue + (modulus : ZMod modulus) - y.residue := by
        rw [Nat.cast_sub hy, Nat.cast_add]; rfl
    _ = x.residue - y.residue := by rw [ZMod.natCast_self, add_zero]

@[simp] theorem residue_mul (x y : Element) : (x * y).residue = x.residue * y.residue :=
  (residue_ofNat _).trans (Nat.cast_mul _ _)

@[simp] theorem residue_neg (x : Element) : (-x).residue = -x.residue := by
  have hx : x.toNat ≤ modulus := Nat.le_of_lt x.toNat_lt
  calc (-x).residue = ((modulus - x.toNat : Nat) : ZMod modulus) := by
        rw [residue, toNat_neg, ZMod.natCast_mod]
    _ = (modulus : ZMod modulus) - x.residue := by rw [Nat.cast_sub hx]; rfl
    _ = -x.residue := by rw [ZMod.natCast_self, zero_sub]

@[simp] theorem residue_pow (x : Element) (e : Nat) : (x.pow e).residue = x.residue ^ e := by
  rw [residue, toNat_pow, ZMod.natCast_mod]
  exact Nat.cast_pow _ _

@[simp] theorem residue_twoPow (bits : Nat) : (twoPow bits).residue = 2 ^ bits := by
  have hTwo : (2 : Element).residue = 2 := residue_ofNat 2
  rw [twoPow, residue_pow, hTwo]

end TypedCircuit.Element
