import Mathlib.Algebra.Group.Nat.Defs
import TypedCircuit.HashInput
import TypedCircuit.Proofs.Success

/-!
# Packing loses nothing

Packing is arithmetic on signals, and what it computes is arithmetic on their values: a group
is shifted up by the bits of the next value, which is added from below. A group holds at most
`packedCapacity` bits, and `2 ^ packedCapacity` is below the modulus, so the sum is the sum of
numbers and nothing is reduced. Where a group is closed depends on the bits only. Two lists of
small values with the same bits are therefore packed alike, group by group, and equal results
come from equal values.

That operations on signals compute the operations on values has three readings: known values
are carried where values are kept, no wrong value is ever carried, and constants stay constants.
`Signal.Tracks` is what the three share.

## Main results

* `HashInput.packFrom_tracks` — packing signals computes packing values.
* `HashInput.packValues_eq_iff` — packing values with the same bits is injective.
-/

namespace TypedCircuit

/-! ## What operations carry -/

namespace Signal

/-- A relation between signals and elements that constants have and operations keep, where
runs of some kind are open. -/
structure Tracks (R : Signal → Element → Prop) (Open : List Run → Prop) : Prop where
  constant (x : Element) : R (.constant x) x
  combine {runs : List Run} (hOpen : Open runs) {a b : Signal} {x y : Element} (ha : R a x)
    (hb : R b y) (operation : Gate.Operation) :
    R (a.combine operation b runs).1 (operation.apply x y) ∧
      Open (a.combine operation b runs).2

variable {a b : Signal} {x y : Element}

theorem combined?_eq_some {operation : Gate.Operation} {z : Element}
    (h : combined? operation a b = some z) :
    ∃ x y, a.known? = some x ∧ b.known? = some y ∧ z = operation.apply x y := by
  unfold combined? at h
  split at h
  · next x y hx hy => exact ⟨x, y, hx, hy, (Option.some.inj h).symm⟩
  · cases h

/-- The result of an operation is the constant of the result or a signal that is derived. -/
theorem combine_cases (operation : Gate.Operation) (a b : Signal) :
    (∃ x y, a = .constant x ∧ b = .constant y ∧
      a.combine operation b = pure (.constant (operation.apply x y))) ∨
    a.combine operation b = deriveSignal operation a b (combined? operation a b) := by
  rcases a with x | v
  · rcases b with y | w
    · exact .inl ⟨x, y, rfl, rfl, rfl⟩
    · exact .inr rfl
  · exact .inr rfl

/-- Where values are kept, known operands make a known result. -/
theorem tracks_known : Tracks (fun s x => s.known? = some x) (fun runs => haveValues runs = true)
    where
  constant _ := rfl
  combine {runs} hOpen {a b x y} ha hb operation := by
    rcases combine_cases operation a b with ⟨x', y', rfl, rfl, hCombine⟩ | hCombine
    · cases ha; cases hb
      rw [hCombine]
      exact ⟨rfl, hOpen⟩
    · have hValue : combined? operation a b = some (operation.apply x y) := by
        unfold combined?
        rw [ha, hb]
      rw [hCombine, hValue]
      rcases runs with _ | ⟨run, outer⟩
      · exact ⟨rfl, rfl⟩
      · cases hMode : run.mode with
        | compile =>
            have hCompile : haveValues (run :: outer) = false := by
              unfold haveValues activeMode?
              rw [List.head?_cons, Option.map_some, hMode]
              rfl
            rw [hCompile] at hOpen
            cases hOpen
        | prove =>
            refine ⟨?_, hOpen⟩
            show Run.keptValue run.mode _ = _
            rw [hMode]
            rfl

/-- In whatever runs, the value of a result is the result of the values. -/
theorem tracks_sound : Tracks (fun s x => ∀ z, s.known? = some z → z = x) (fun _ => True) where
  constant _ _ h := (Option.some.inj h).symm
  combine {runs} _ {a b x y} ha hb operation := by
    refine ⟨?_, trivial⟩
    rcases combine_cases operation a b with ⟨x', y', rfl, rfl, hCombine⟩ | hCombine
    · rw [hCombine, ← ha x' rfl, ← hb y' rfl]
      exact fun z hz => (Option.some.inj hz).symm
    · have hKnown : ∀ z, combined? operation a b = some z → z = operation.apply x y := by
        intro z hz
        obtain ⟨x', y', hx, hy, rfl⟩ := combined?_eq_some hz
        rw [ha x' hx, hb y' hy]
      rw [hCombine]
      rcases runs with _ | ⟨run, outer⟩
      · cases hValue : combined? operation a b with
        | none => exact nofun
        | some z => exact fun z' hz' => hKnown z' (hValue.trans hz')
      · intro z hz
        have hKept : Run.keptValue run.mode (combined? operation a b) = some z := hz
        cases hMode : run.mode with
        | compile => rw [hMode] at hKept; cases hKept
        | prove => rw [hMode] at hKept; exact hKnown z hKept

/-- Operations on constants make constants. -/
theorem tracks_constant : Tracks (fun s x => s = .constant x) (fun _ => True) where
  constant _ := rfl
  combine {_} _ {_ _ _ _} ha hb _ := by
    subst ha hb
    exact ⟨rfl, trivial⟩

end Signal

namespace HashInput

/-! ## Packing values -/

/-- Shifts a value of the given length into the element of a group. -/
def shiftValue (group x : Element) (bits : Nat) : Element := group * Element.twoPow bits + x

/-- Packs small values onto complete elements and an open group of some bits. -/
def packValues (done : List Element) (group : Element) (held : Nat) :
    List (Element × Nat) → List Element
  | [] => if 0 < held then done ++ [group] else done
  | (x, bits) :: rest =>
    if 0 < held ∧ packedCapacity < held + bits then
      packValues (done ++ [group]) (shiftValue 0 x bits) bits rest
    else packValues done (shiftValue group x bits) (held + bits) rest

variable {R : Signal → Element → Prop} {Open : List Run → Prop}

theorem shiftIn_tracks (h : Signal.Tracks R Open) {runs : List Run} (hOpen : Open runs)
    {group : Group} {s : Signal} {g x : Element} (hGroup : R group.element g) (hs : R s x)
    (bits : Nat) :
    R (group.shiftIn s bits runs).1.element (shiftValue g x bits) ∧
      (group.shiftIn s bits runs).1.bits = group.bits + bits ∧
      Open (group.shiftIn s bits runs).2 := by
  obtain ⟨hShifted, hBetween⟩ := h.combine hOpen hGroup (h.constant (Element.twoPow bits)) .mul
  obtain ⟨hSum, hAfter⟩ := h.combine hBetween hShifted hs .add
  exact ⟨hSum, rfl, hAfter⟩

/-- Packing signals computes packing their values. -/
theorem packFrom_tracks (h : Signal.Tracks R Open) {packed : List (Signal × Nat)}
    {smalls : List (Element × Nat)}
    (hPacked : List.Forall₂ (fun p q => R p.1 q.1 ∧ p.2 = q.2) packed smalls) :
    ∀ {done : List Signal} {xs : List Element} {group : Group} {g : Element} {runs : List Run},
      Open runs → List.Forall₂ R done xs → R group.element g →
        List.Forall₂ R (packFrom done group packed runs).1
          (packValues xs g group.bits smalls) := by
  induction hPacked with
  | nil =>
      intro done xs group g runs _ hDone hGroup
      show List.Forall₂ R (if 0 < group.bits then done ++ [group.element] else done)
        (if 0 < group.bits then xs ++ [g] else xs)
      split
      · exact List.rel_append hDone (.cons hGroup .nil)
      · exact hDone
  | @cons p q packed smalls hHead _ ih =>
      intro done xs group g runs hOpen hDone hGroup
      obtain ⟨s, bits⟩ := p
      obtain ⟨x, bits'⟩ := q
      obtain ⟨hs, rfl⟩ : R s x ∧ bits = bits' := hHead
      show List.Forall₂ R ((packStep done group s bits >>= fun next =>
        packFrom next.1 next.2 packed) runs).1 (if _ then _ else _)
      unfold packStep
      split
      · obtain ⟨hElement, hBits, hAfter⟩ :=
          shiftIn_tracks h hOpen (show R Group.empty.element 0 from h.constant 0) hs bits
        have hBits : (Group.empty.shiftIn s bits runs).1.bits = bits :=
          hBits.trans (Nat.zero_add bits)
        have hNext := ih hAfter (List.rel_append hDone (.cons hGroup .nil)) hElement
        rw [hBits] at hNext
        exact hNext
      · obtain ⟨hElement, hBits, hAfter⟩ := shiftIn_tracks h hOpen hGroup hs bits
        have hNext := ih hAfter hDone hElement
        rw [hBits] at hNext
        exact hNext

/-! ## No reduction -/

theorem two_pow_lt_modulus {bits : Nat} (h : bits ≤ packedCapacity) : 2 ^ bits < modulus :=
  Nat.lt_of_le_of_lt (Nat.pow_le_pow_right (by decide) h) (by decide)

/-- Within the capacity the element of a group is the number that is written by its values. -/
theorem toNat_shiftValue {group x : Element} {held bits : Nat} (hGroup : group.toNat < 2 ^ held)
    (hx : x.toNat < 2 ^ bits) (hCapacity : held + bits ≤ packedCapacity) :
    (shiftValue group x bits).toNat = group.toNat * 2 ^ bits + x.toNat ∧
      (shiftValue group x bits).toNat < 2 ^ (held + bits) := by
  have hLess : group.toNat * 2 ^ bits + x.toNat < 2 ^ (held + bits) := by
    have hStep : (group.toNat + 1) * 2 ^ bits ≤ 2 ^ held * 2 ^ bits :=
      Nat.mul_le_mul_right _ hGroup
    rw [Nat.succ_mul, ← Nat.pow_add] at hStep
    omega
  have hModulus : 2 ^ (held + bits) < modulus := two_pow_lt_modulus hCapacity
  have hPow : (Element.twoPow bits).toNat = 2 ^ bits := by
    have hBits : 2 ^ bits < modulus := two_pow_lt_modulus (by omega)
    unfold Element.twoPow
    rw [Element.toNat_pow]
    exact Nat.mod_eq_of_lt hBits
  have hValue : (shiftValue group x bits).toNat = group.toNat * 2 ^ bits + x.toNat := by
    unfold shiftValue
    rw [Element.toNat_add, Element.toNat_mul, hPow,
      Nat.mod_eq_of_lt (show group.toNat * 2 ^ bits < modulus by omega)]
    exact Nat.mod_eq_of_lt (by omega)
  exact ⟨hValue, hValue ▸ hLess⟩

/-- Values that fit do not spill into each other. -/
theorem shiftValue_eq_iff {group group' x y : Element} {held bits : Nat}
    (hGroup : group.toNat < 2 ^ held) (hGroup' : group'.toNat < 2 ^ held)
    (hx : x.toNat < 2 ^ bits) (hy : y.toNat < 2 ^ bits)
    (hCapacity : held + bits ≤ packedCapacity) :
    shiftValue group x bits = shiftValue group' y bits ↔ group = group' ∧ x = y := by
  constructor
  · intro h
    have hNumbers : group.toNat * 2 ^ bits + x.toNat = group'.toNat * 2 ^ bits + y.toNat := by
      rw [← (toNat_shiftValue hGroup hx hCapacity).1, h,
        (toNat_shiftValue hGroup' hy hCapacity).1]
    have hPos : 0 < 2 ^ bits := Nat.two_pow_pos bits
    -- The group is the quotient by the bits of the value, and the value is the rest.
    have hHigh : group.toNat = group'.toNat := by
      have hDiv := congrArg (· / 2 ^ bits) hNumbers
      simpa only [Nat.mul_comm _ (2 ^ bits), Nat.mul_add_div hPos, Nat.div_eq_of_lt hx,
        Nat.div_eq_of_lt hy, Nat.add_zero] using hDiv
    rw [hHigh] at hNumbers
    exact ⟨Element.ext hHigh, Element.ext (Nat.add_left_cancel hNumbers)⟩
  · rintro ⟨rfl, rfl⟩
    rfl

/-- Two small values of the same number of bits, which both fit. -/
def BothFit (p q : Element × Nat) : Prop :=
  p.2 = q.2 ∧ p.2 ≤ packedCapacity ∧ p.1.toNat < 2 ^ p.2 ∧ q.1.toNat < 2 ^ p.2

/--
Packing is injective on small values of the same bits. The groups of both lists are closed at
the same places, because closing looks at bits only; the induction carries that both open
groups hold as many bits and no more than the capacity.
-/
theorem packValues_eq_iff {smalls smalls' : List (Element × Nat)}
    (h : List.Forall₂ BothFit smalls smalls') :
    ∀ {done done' : List Element} {group group' : Element} {held : Nat},
      group.toNat < 2 ^ held → group'.toNat < 2 ^ held → held ≤ packedCapacity →
        (packValues done group held smalls = packValues done' group' held smalls' ↔
          done = done' ∧ group = group' ∧ smalls = smalls') := by
  induction h with
  | nil =>
      intro done done' group group' held hGroup hGroup' _
      show (if 0 < held then done ++ [group] else done) =
        (if 0 < held then done' ++ [group'] else done') ↔ _
      by_cases hHeld : 0 < held
      · rw [if_pos hHeld, if_pos hHeld, List.append_singleton_inj]
        simp
      · -- An empty group is zero.
        obtain rfl : held = 0 := by omega
        have hSame : group = group' := Element.ext (by omega)
        rw [if_neg hHeld, if_neg hHeld]
        simp [hSame]
  | @cons p q smalls smalls' hHead _ ih =>
      intro done done' group group' held hGroup hGroup' hHeld
      obtain ⟨x, bits⟩ := p
      obtain ⟨y, bits'⟩ := q
      obtain ⟨rfl, hBits, hx, hy⟩ :
        bits = bits' ∧ bits ≤ packedCapacity ∧ x.toNat < 2 ^ bits ∧ y.toNat < 2 ^ bits := hHead
      show (if 0 < held ∧ packedCapacity < held + bits then _ else _) =
        (if 0 < held ∧ packedCapacity < held + bits then _ else _) ↔ _
      have hCons : (x, bits) :: smalls = (y, bits) :: smalls' ↔ x = y ∧ smalls = smalls' := by
        simp
      by_cases hClose : 0 < held ∧ packedCapacity < held + bits
      · have hZero : (0 : Element).toNat < 2 ^ 0 := by decide
        have hAlone : 0 + bits ≤ packedCapacity := by omega
        have hx' := (toNat_shiftValue hZero hx hAlone).2
        have hy' := (toNat_shiftValue hZero hy hAlone).2
        rw [Nat.zero_add] at hx' hy'
        rw [if_pos hClose, if_pos hClose, ih hx' hy' hBits, List.append_singleton_inj,
          shiftValue_eq_iff hZero hZero hx hy hAlone, hCons]
        simp [and_assoc]
      · have hRoom : held + bits ≤ packedCapacity := by omega
        have hx' := (toNat_shiftValue hGroup hx hRoom).2
        have hy' := (toNat_shiftValue hGroup' hy hRoom).2
        rw [if_neg hClose, if_neg hClose, ih hx' hy' hRoom,
          shiftValue_eq_iff hGroup hGroup' hx hy hRoom, hCons]
        simp [and_assoc]

end HashInput

end TypedCircuit
