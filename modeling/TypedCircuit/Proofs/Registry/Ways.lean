import Mathlib.Data.List.Perm.Subperm
import Mathlib.Logic.Relation
import Mathlib.Order.Monotone.Basic

/-!
# Ways through finitely many places

A relation says which step leads where, and only finitely many places are left by a step. Two
things follow that registries are made for.

A way that never ends comes to a place twice. So all ways from a place end exactly if no circle is
reached from it.

What is found of a place step by step, out of what is found of the places behind it, is found within
as many steps as there are places that are left, and one more; or it is never found.

## Main results

* `acc_iff_no_circle` — all ways from a place end exactly if no circle is reached.
* `found_within` — what is found at all is found within a bound.
-/

namespace TypedCircuit

open Relation (ReflTransGen TransGen)

variable {α : Type} {rel : α → α → Prop} {places : List α}

/-! ## Circles -/

private theorem acc_of_reached {a b : α} (h : Acc (fun b a => rel a b) a)
    (hReached : ReflTransGen rel a b) : Acc (fun b a => rel a b) b := by
  induction hReached with
  | refl => exact h
  | tail _ hStep ih => exact Acc.inv ih hStep

private theorem no_circle_of_acc {a : α} (h : Acc (fun b a => rel a b) a) : ¬ TransGen rel a a := by
  intro hCircle
  have hTrans := Acc.transGen h
  have hSelf : TransGen (fun b a => rel a b) a a := Relation.transGen_swap.2 hCircle
  clear hCircle h
  induction hTrans with
  | intro a _ ih => exact ih a hSelf hSelf

/-- All ways end where no circle is reached. The places that were passed on the way are the path;
no more can be passed than are left by a step. -/
private theorem acc_past_path (hPlaces : ∀ {a b}, rel a b → a ∈ places) (n : Nat) {a : α}
    (path : List α) (hLength : places.length < path.length + n) (hNodup : path.Nodup)
    (hSubset : path ⊆ places) (hPassed : ∀ passed ∈ path, TransGen rel passed a)
    (h : ∀ b, ReflTransGen rel a b → ¬ TransGen rel b b) : Acc (fun b a => rel a b) a := by
  induction n generalizing path a with
  | zero =>
      have hLe := (List.subperm_of_subset hNodup hSubset).length_le
      omega
  | succ n ih =>
      refine Acc.intro a fun b hStep => ?_
      have hFresh : a ∉ path := fun hMem => h a .refl (hPassed a hMem)
      refine ih (a :: path) ?_ (List.nodup_cons.2 ⟨hFresh, hNodup⟩)
        (List.cons_subset.2 ⟨hPlaces hStep, hSubset⟩) ?_ fun last hLast => h last (hLast.head hStep)
      · rw [List.length_cons]
        omega
      · intro passed hMem
        rcases List.mem_cons.1 hMem with rfl | hMem
        · exact .single hStep
        · exact (hPassed passed hMem).tail hStep

/-- All ways from a place end exactly if no circle is reached from it. -/
theorem acc_iff_no_circle (hPlaces : ∀ {a b}, rel a b → a ∈ places) {a : α} :
    Acc (fun b a => rel a b) a ↔ ∀ b, ReflTransGen rel a b → ¬ TransGen rel b b := by
  constructor
  · exact fun h b hReached => no_circle_of_acc (acc_of_reached h hReached)
  · exact acc_past_path hPlaces (places.length + 1) [] (by simp) List.nodup_nil
      (List.nil_subset _) nofun

/-! ## Bounds -/

open Classical in
/-- The places of which something is found within some steps and one more. -/
private noncomputable def foundAmong (places : List α) (found : Nat → α → Prop) (k : Nat) :
    List α :=
  places.filter (found (k + 1) ·)

section

variable {found : Nat → α → Prop} {j k : Nat} {a : α}

private theorem mem_foundAmong : a ∈ foundAmong places found k ↔ a ∈ places ∧ found (k + 1) a := by
  classical
  rw [foundAmong, List.mem_filter, decide_eq_true_iff]

private theorem foundAmong_sublist (h : ∀ a, found (j + 1) a → found (k + 1) a) :
    (foundAmong places found j).Sublist (foundAmong places found k) := by
  classical
  exact List.monotone_filter_right places fun a ha => decide_eq_true (h a (of_decide_eq_true ha))

private theorem found_of_length (h : ∀ a, found (j + 1) a → found (k + 1) a)
    (hLength : (foundAmong places found j).length = (foundAmong places found k).length)
    (ha : a ∈ places) (hFound : found (k + 1) a) : found (j + 1) a := by
  have hSublist : (foundAmong places found j).Sublist (foundAmong places found k) :=
    foundAmong_sublist h
  have hEq := hSublist.eq_of_length hLength
  exact (mem_foundAmong.1 (hEq ▸ mem_foundAmong.2 ⟨ha, hFound⟩)).2

/--
What is found of a place at all is found within as many steps as there are places that are left, and
one more. With every step something is found of more places, until once nothing new is found; then
nothing new is found any more. A place that is left by no step needs one step.
-/
theorem found_within (hPlaces : ∀ {a b}, rel a b → a ∈ places)
    (hMore : ∀ {k a}, found k a → found (k + 1) a)
    (hStep : ∀ {j k a}, (∀ b, rel a b → found j b → found k b) → found (j + 1) a →
      found (k + 1) a) (h : found (k + 1) a) : found (places.length + 1) a := by
  have hLater : ∀ {j k}, j ≤ k → ∀ a, found (j + 1) a → found (k + 1) a := by
    intro j k hLe a hFound
    induction hLe with
    | refl => exact hFound
    | step _ ih => exact hMore ih
  have hEnd : ∀ {j k a}, a ∉ places → found (j + 1) a → found (k + 1) a :=
    fun hNot => hStep fun b hRel => absurd (hPlaces hRel) hNot
  let count (k : Nat) : Nat := (foundAmong places found k).length
  have hMono : Monotone count := fun j k hLe => (foundAmong_sublist (hLater hLe)).length_le
  have hStable : ∀ k, count k = count (k + 1) → count (k + 1) = count (k + 2) := by
    intro k hCount
    have hSame : ∀ b, found (k + 2) b → found (k + 1) b := fun b hb => by
      by_cases hPlace : b ∈ places
      · exact found_of_length (hLater (Nat.le_succ k)) hCount hPlace hb
      · exact hEnd hPlace hb
    refine Nat.le_antisymm (hMono (Nat.le_succ _)) ?_
    exact (foundAmong_sublist fun b hb => hStep (fun c _ => hSame c) hb).length_le
  by_cases ha : a ∈ places
  · rcases Nat.le_total k places.length with hLe | hLe
    · exact hLater hLe a h
    · have hCount : count k = count places.length :=
        Nat.stabilises_of_monotone hMono (fun k => List.length_filter_le _ _) hStable hLe
      exact found_of_length (hLater hLe) hCount.symm ha h
  · exact hEnd ha h

end

end TypedCircuit
