import TypedCircuit.Proofs.Hash.Packing
import TypedCircuit.Proofs.Hash.Placement

/-!
# Hash inputs of one type do not collide

What is hashed of a value is the packed hash input of its type. Two values of one type that
pass the check of the type have the same packed elements exactly if they have the same
elements: every element has its slot, the slots are those of the type, and packing is
injective on values that fit their slots.

The type may have members without a hash input of their own, inside shapes and registered
types; of those nothing is packed.

## Main results

* `Registry.pack_eq_iff` — packed hash inputs are equal exactly if the elements are.
-/

namespace TypedCircuit

namespace InputSlot

variable {α β : Type} {slots : List InputSlot}

/-- Whether an element has no more bits than its slot. -/
def Holds (x : Element) : InputSlot → Prop
  | .whole => True
  | .packed bits _ => x.toNat < 2 ^ bits

theorem wholes_rel {R : α → β → Prop} {xs : List α} {ys : List β} (h : List.Forall₂ R xs ys)
    (slots : List InputSlot) : List.Forall₂ R (wholes slots xs) (wholes slots ys) := by
  induction h generalizing slots with
  | nil => cases slots with
    | nil => exact .nil
    | cons slot _ => cases slot <;> exact .nil
  | cons hHead _ ih =>
      cases slots with
      | nil => exact .nil
      | cons slot slots =>
          cases slot with
          | whole => exact .cons hHead (ih slots)
          | packed => exact ih slots

theorem smalls_rel {R : α → β → Prop} {xs : List α} {ys : List β} (h : List.Forall₂ R xs ys)
    (slots : List InputSlot) :
    List.Forall₂ (fun p q => R p.1 q.1 ∧ p.2 = q.2) (smalls slots xs) (smalls slots ys) := by
  induction h generalizing slots with
  | nil => cases slots with
    | nil => exact .nil
    | cons slot _ => cases slot <;> exact .nil
  | cons hHead _ ih =>
      cases slots with
      | nil => exact .nil
      | cons slot slots =>
          cases slot with
          | whole => exact ih slots
          | packed => exact .cons ⟨hHead, rfl⟩ (ih slots)

/-- Elements that are told apart are told apart in their slots. -/
theorem place_injective {xs ys : List α} (hxs : xs.length = slots.length)
    (hys : ys.length = slots.length) (hWholes : wholes slots xs = wholes slots ys)
    (hSmalls : smalls slots xs = smalls slots ys) : xs = ys := by
  induction slots generalizing xs ys with
  | nil => rw [List.length_eq_zero_iff.1 hxs, List.length_eq_zero_iff.1 hys]
  | cons slot slots ih =>
      obtain ⟨x, xs, rfl⟩ := List.exists_cons_of_length_eq_add_one hxs
      obtain ⟨y, ys, rfl⟩ := List.exists_cons_of_length_eq_add_one hys
      have hRest : xs.length = slots.length := Nat.succ.inj hxs
      have hRest' : ys.length = slots.length := Nat.succ.inj hys
      cases slot with
      | whole =>
          obtain ⟨rfl, hTail⟩ := List.cons.inj hWholes
          exact congrArg (x :: ·) (ih hRest hRest' hTail hSmalls)
      | packed bits h =>
          obtain ⟨hHead, hTail⟩ := List.cons.inj hSmalls
          obtain ⟨rfl, -⟩ := Prod.mk.inj hHead
          exact congrArg (x :: ·) (ih hRest hRest' hWholes hTail)

theorem smalls_bothFit {xs ys : List Element} (hxs : List.Forall₂ Holds xs slots)
    (hys : List.Forall₂ Holds ys slots) :
    List.Forall₂ HashInput.BothFit (smalls slots xs) (smalls slots ys) := by
  induction hxs generalizing ys with
  | nil => cases hys; exact .nil
  | @cons x slot xs slots hHead _ ih =>
      cases hys with
      | cons hHead' hRest' =>
          cases slot with
          | whole => exact ih hRest'
          | packed bits h => exact .cons ⟨rfl, h, hHead, hHead'⟩ (ih hRest')

theorem holds_of_fits {fields : List Signal} {xs : List Element}
    (h : List.Forall₂ Fits fields slots)
    (hValues : List.Forall₂ (fun s x => s.known? = some x) fields xs) :
    List.Forall₂ Holds xs slots := by
  induction h generalizing xs with
  | nil => cases hValues; exact .nil
  | @cons s slot fields slots hHead _ ih =>
      cases hValues with
      | @cons _ x _ xs hx hRest =>
          refine .cons ?_ (ih hRest)
          cases slot with
          | whole => trivial
          | packed bits h => exact hHead x hx

end InputSlot

/-! ## Values of signals -/

theorem Signal.value_eq_ok {s : Signal} {x : Element} : s.value = .ok x ↔ s.known? = some x := by
  unfold value
  cases s.known? with
  | none => exact ⟨nofun, nofun⟩
  | some y => exact ⟨fun h => by cases h; rfl, fun h => by cases h; rfl⟩

theorem values_eq_ok {fields : List Signal} {xs : List Element} :
    (fields.mapM fun s : Signal => s.value) = .ok xs ↔
      List.Forall₂ (fun s x => s.known? = some x) fields xs := by
  rw [mapM_eq_ok]
  exact ⟨fun h => h.imp fun _ _ => Signal.value_eq_ok.1,
    fun h => h.imp fun _ _ => Signal.value_eq_ok.2⟩

theorem constants_of_values {fields : List Signal} {xs : List Element}
    (h : List.Forall₂ (fun s x => s.known? = some x) fields xs)
    (hConstant : ∀ s ∈ fields, s.isConstant = true) :
    List.Forall₂ (fun s x => s = .constant x) fields xs := by
  induction h with
  | nil => exact .nil
  | @cons s x fields xs hHead _ ih =>
      refine .cons ?_ (ih fun t ht => hConstant t (List.mem_cons_of_mem s ht))
      rcases s with y | v
      · cases hHead; rfl
      · cases hConstant _ List.mem_cons_self

namespace HashInput

variable {slots : List InputSlot} {fields : List Signal} {xs : List Element}

/-- The packed values of elements in their slots. -/
def packedValues (slots : List InputSlot) (xs : List Element) : List Element :=
  packValues (InputSlot.wholes slots xs) 0 0 (InputSlot.smalls slots xs)

theorem pack_place_tracks {R : Signal → Element → Prop} {Open : List Run → Prop}
    (h : Signal.Tracks R Open) (hFields : List.Forall₂ R fields xs) {runs : List Run}
    (hOpen : Open runs) :
    List.Forall₂ R ((place slots fields).pack runs).1 (packedValues slots xs) :=
  packFrom_tracks h (InputSlot.smalls_rel hFields slots) hOpen
    (InputSlot.wholes_rel hFields slots) (h.constant 0)

/-- The packed elements have values where values are kept, and everywhere if they come from
constants. -/
theorem pack_place_values
    (hValues : List.Forall₂ (fun s x => s.known? = some x) fields xs) {runs : List Run}
    (hKept : haveValues runs = true ∨ ∀ s ∈ fields, s.isConstant = true) :
    ((place slots fields).pack runs).1.mapM (fun s : Signal => s.value) =
      .ok (packedValues slots xs) := by
  refine values_eq_ok.2 ?_
  rcases hKept with hKept | hConstant
  · exact pack_place_tracks Signal.tracks_known hValues hKept
  · refine (pack_place_tracks Signal.tracks_constant (constants_of_values hValues hConstant)
      trivial).imp ?_
    rintro _ _ rfl
    rfl

/-- If the packed elements have values, they are the packed values. -/
theorem eq_packedValues
    (hValues : List.Forall₂ (fun s x => s.known? = some x) fields xs) {runs : List Run}
    {out : List Element}
    (hOut : (((place slots fields).pack runs).1.mapM fun s : Signal => s.value) = .ok out) :
    out = packedValues slots xs := by
  have hSound : List.Forall₂ (fun s x => ∀ z, s.known? = some z → z = x)
      ((place slots fields).pack runs).1 (packedValues slots xs) :=
    pack_place_tracks Signal.tracks_sound
      (hValues.imp fun s x hx z hz => Option.some.inj (hz.symm.trans hx)) trivial
  have hKnown := values_eq_ok.1 hOut
  clear hOut
  generalize packedValues slots xs = expected at hSound
  generalize ((place slots fields).pack runs).1 = packed at hSound hKnown
  induction hKnown generalizing expected with
  | nil => cases hSound; rfl
  | cons hHead _ ih =>
      cases hSound with
      | cons hFound hRest => rw [hFound _ hHead, ih _ hRest]

end HashInput

/--
Two values of a type with a hash input, with known elements that pass the check of the type,
have hash inputs. What they are packed to has values where values are kept, or where the
elements are constants, and wherever both have values, those are the same exactly if the
elements have the same values.
-/
theorem Registry.pack_eq_iff {r : Registry} {d : Descriptor}
    (hGrounded : ∀ name ∈ d.mentions, r.Grounded name) (hInput : d.supportsHashInput = true)
    {v w : Value} {fields fields' : List Signal} {xs ys : List Element}
    (hv : (r.codec d).toFields v = .ok fields) (hw : (r.codec d).toFields w = .ok fields')
    (hxs : (fields.mapM fun s : Signal => s.value) = .ok xs)
    (hys : (fields'.mapM fun s : Signal => s.value) = .ok ys)
    {runs runs' after after' : List Run} (hCheck : (r.codec d).check v runs = (.ok (), after))
    (hCheck' : (r.codec d).check w runs' = (.ok (), after')) :
    ∃ input input', (r.codec d).toInput v = .ok input ∧ (r.codec d).toInput w = .ok input' ∧
      (∀ opened, haveValues opened = true ∨ (∀ s ∈ fields, s.isConstant = true) →
        ∃ out, ((input.pack opened).1.mapM fun s : Signal => s.value) = .ok out) ∧
      (∀ opened, haveValues opened = true ∨ (∀ s ∈ fields', s.isConstant = true) →
        ∃ out, ((input'.pack opened).1.mapM fun s : Signal => s.value) = .ok out) ∧
      ∀ opened opened' out out',
        ((input.pack opened).1.mapM fun s : Signal => s.value) = .ok out →
        ((input'.pack opened').1.mapM fun s : Signal => s.value) = .ok out' →
          (out = out' ↔ xs = ys) := by
  obtain ⟨slots, hSlots⟩ := encodes_codec hGrounded hInput
  have hFlat := Codec.flatten_of_toFields hv
  have hFlat' := Codec.flatten_of_toFields hw
  have hValues := values_eq_ok.1 hxs
  have hValues' := values_eq_ok.1 hys
  have hToInput {u : Value} {us : List Signal} (hu : (r.codec d).flatten u = .ok us) :
      (r.codec d).toInput u = .ok (HashInput.place slots us) := by
    unfold Codec.toInput
    rw [codec_hashInput, if_pos hInput]
    exact hSlots.input_eq hu
  refine ⟨HashInput.place slots fields, HashInput.place slots fields', hToInput hFlat,
    hToInput hFlat', fun opened hKept => ⟨_, HashInput.pack_place_values hValues hKept⟩,
    fun opened hKept => ⟨_, HashInput.pack_place_values hValues' hKept⟩, ?_⟩
  intro opened opened' out out' hOut hOut'
  rw [HashInput.eq_packedValues hValues hOut, HashInput.eq_packedValues hValues' hOut']
  have hHolds := InputSlot.holds_of_fits (hSlots.fits hFlat hCheck) hValues
  have hHolds' := InputSlot.holds_of_fits (hSlots.fits hFlat' hCheck') hValues'
  have hZero : (0 : Element).toNat < 2 ^ 0 := by decide
  constructor
  · intro hSame
    obtain ⟨hWholes, -, hSmalls⟩ := (HashInput.packValues_eq_iff
      (InputSlot.smalls_bothFit hHolds hHolds') hZero hZero (Nat.zero_le _)).1 hSame
    exact InputSlot.place_injective hHolds.length_eq hHolds'.length_eq hWholes hSmalls
  · rintro rfl
    rfl

/-! ## Orders -/

/-- A registry with orders, of which the note has no hash input of its own. -/
private def orders : Registry :=
  ⟨[("Order", [("open", .boolean), ("price", .uint32), ("lots", .uint32),
    ("note", .plain .uint32)])]⟩

/-- An order of a price. -/
private def orderAt (price : Element) : Value := .record (some "Order")
  [("lots", .ofElement 7), ("note", .ofElement 5), ("open", .ofBool true),
    ("price", .ofElement price)]

/-- Orders at two prices are hashed to two lists of elements. -/
theorem pack_orders :
    ∃ input input',
      (orders.codec (.composite "Order" true)).toInput (orderAt 40) = .ok input ∧
      (orders.codec (.composite "Order" true)).toInput (orderAt 41) = .ok input' ∧
      ∃ out out', ((input.pack []).1.mapM fun s : Signal => s.value) = .ok out ∧
        ((input'.pack []).1.mapM fun s : Signal => s.value) = .ok out' ∧ out ≠ out' := by
  have hGrounded : ∀ name ∈ (Descriptor.composite "Order" true).mentions,
      orders.Grounded name := by
    intro name hName
    rw [List.mem_singleton.1 hName]
    refine Registry.Grounded.of_members fun m hm other hOther => ?_
    rcases hm with _ | ⟨_, _ | ⟨_, _ | ⟨_, _ | ⟨_, hm⟩⟩⟩⟩
    · cases hOther
    · cases hOther
    · cases hOther
    · cases hOther
    · cases hm
  have hFields (price : Element) :
      (orders.codec (.composite "Order" true)).toFields (orderAt price) =
        .ok [.constant 1, .constant price, .constant 7, .constant 5] := rfl
  have hValues (price : Element) :
      (([.constant 1, .constant price, .constant 7, .constant 5] : List Signal).mapM
        fun s : Signal => s.value) = .ok [1, price, 7, 5] := rfl
  have hCheck : (orders.codec (.composite "Order" true)).check (orderAt 40) [] =
      (.ok (), []) := rfl
  have hCheck' : (orders.codec (.composite "Order" true)).check (orderAt 41) [] =
      (.ok (), []) := rfl
  obtain ⟨input, input', hInput, hInput', hOut, hOut', hSame⟩ :=
    Registry.pack_eq_iff hGrounded rfl (hFields 40) (hFields 41) (hValues 40) (hValues 41)
      hCheck hCheck'
  obtain ⟨out, hOut⟩ := hOut [] (.inl rfl)
  obtain ⟨out', hOut'⟩ := hOut' [] (.inl rfl)
  refine ⟨input, input', hInput, hInput', out, out', hOut, hOut', fun hEq => ?_⟩
  have hPrices : ([1, 40, 7, 5] : List Element) = [1, 41, 7, 5] :=
    (hSame [] [] out out' hOut hOut').1 hEq
  revert hPrices
  decide

end TypedCircuit
