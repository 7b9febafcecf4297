import Mathlib.Algebra.Group.Nat.Defs
import TypedCircuit.Proofs.Circuit.Inputs
import TypedCircuit.Proofs.Codec.Grounding
import TypedCircuit.Proofs.Codec.Members
import TypedCircuit.Proofs.Passes.Alike

/-!
# Where elements go in a hash input

A type puts every element of a value into its hash input, either whole or packed into a
number of bits. Which of the two is decided by the type, so a type has a list of slots, one
for each element, and the hash input is the elements put where their slots say. The check of
a value makes sure that packed elements have no more bits than their slots.

Members of shapes and registered types may have no hash input of their own. Their elements
all go in whole, and how many there are is the width that is verified when they are
flattened; nothing else has to be known of such a type.

The slots of a name are found step by step, like its width, and past the bound of the registry
the number of steps does not matter.

## Main results

* `Codec.encodes_part` — any codec puts its elements into slots, at a position.
* `Registry.encodes_slots` — a type with a hash input puts all its elements into its slots.
* `Registry.codec_hashInput` — which codecs have a hash input.
-/

namespace TypedCircuit

/-! ## Slots -/

/-- How an element goes into a hash input. -/
inductive InputSlot where
  /-- As an element of its own. -/
  | whole
  /-- As a small value that shares an element with others. -/
  | packed (bits : Nat) (h : bits ≤ packedCapacity)

namespace InputSlot

variable {α β : Type}

/-- The elements in whole slots. -/
def wholes : List InputSlot → List α → List α
  | .whole :: slots, a :: rest => a :: wholes slots rest
  | .packed _ _ :: slots, _ :: rest => wholes slots rest
  | _, _ => []

/-- The elements in packed slots, with the bits of their slots. -/
def smalls : List InputSlot → List α → List (α × Nat)
  | .whole :: slots, _ :: rest => smalls slots rest
  | .packed bits _ :: slots, a :: rest => (a, bits) :: smalls slots rest
  | _, _ => []

/-- Whether the value of a signal has no more bits than its slot, if it is known. -/
def Fits (s : Signal) : InputSlot → Prop
  | .whole => True
  | .packed bits _ => ∀ x, s.known? = some x → x.toNat < 2 ^ bits

theorem wholes_append {slots₁ : List InputSlot} {xs₁ : List α} (h : xs₁.length = slots₁.length)
    (slots₂ : List InputSlot) (xs₂ : List α) :
    wholes (slots₁ ++ slots₂) (xs₁ ++ xs₂) = wholes slots₁ xs₁ ++ wholes slots₂ xs₂ := by
  induction slots₁ generalizing xs₁ with
  | nil =>
      obtain rfl := List.length_eq_zero_iff.1 h
      rfl
  | cons slot slots ih =>
      cases xs₁ with
      | nil => cases h
      | cons x xs =>
          have hRest := ih (Nat.succ.inj h)
          cases slot with
          | whole => exact congrArg (x :: ·) hRest
          | packed bits hBits => exact hRest

theorem smalls_append {slots₁ : List InputSlot} {xs₁ : List α} (h : xs₁.length = slots₁.length)
    (slots₂ : List InputSlot) (xs₂ : List α) :
    smalls (slots₁ ++ slots₂) (xs₁ ++ xs₂) = smalls slots₁ xs₁ ++ smalls slots₂ xs₂ := by
  induction slots₁ generalizing xs₁ with
  | nil =>
      obtain rfl := List.length_eq_zero_iff.1 h
      rfl
  | cons slot slots ih =>
      cases xs₁ with
      | nil => cases h
      | cons x xs =>
          have hRest := ih (Nat.succ.inj h)
          cases slot with
          | whole => exact hRest
          | packed bits hBits => exact congrArg ((x, bits) :: ·) hRest

theorem wholes_replicate (xs : List α) : wholes (List.replicate xs.length .whole) xs = xs := by
  induction xs with
  | nil => rfl
  | cons x rest ih => exact congrArg (x :: ·) ih

theorem smalls_replicate (count : Nat) (xs : List α) :
    smalls (List.replicate count .whole) xs = [] := by
  induction xs generalizing count with
  | nil => cases count <;> rfl
  | cons x rest ih =>
      cases count with
      | zero => rfl
      | succ n => exact ih n

/-- The slots of a type inside of a larger one: its own if it has a hash input, and otherwise a
whole slot for each element. -/
def placed (capable : Bool) (width : Except Error Width) (own : List InputSlot) :
    List InputSlot :=
  if capable then own
  else match width with
  | .ok width => List.replicate width.fields .whole
  | .error _ => []

theorem placed_own {capable : Bool} {found : Except Error Width} {own : List InputSlot}
    (hCapable : capable = true) : placed capable found own = own :=
  if_pos hCapable

theorem placed_whole {capable : Bool} {found : Except Error Width} {width : Width}
    {own : List InputSlot} (hCapable : ¬ capable = true) (hWidth : found = .ok width) :
    placed capable found own = List.replicate width.fields .whole := by
  subst hWidth
  exact if_neg hCapable

end InputSlot

/-- The hash input of elements that are put where their slots say. -/
def HashInput.place (slots : List InputSlot) (fields : List Signal) : HashInput :=
  ⟨InputSlot.wholes slots fields, InputSlot.smalls slots fields⟩

theorem HashInput.place_append {slots₁ : List InputSlot} {fields₁ : List Signal}
    (h : fields₁.length = slots₁.length) (slots₂ : List InputSlot) (fields₂ : List Signal) :
    place (slots₁ ++ slots₂) (fields₁ ++ fields₂) =
      (place slots₁ fields₁).append (place slots₂ fields₂) := by
  rw [place, InputSlot.wholes_append h, InputSlot.smalls_append h]
  rfl

theorem HashInput.place_replicate (fields : List Signal) :
    place (List.replicate fields.length .whole) fields = ofFields fields := by
  rw [place, InputSlot.wholes_replicate, InputSlot.smalls_replicate]
  rfl

/-! ## Parts -/

/-- A part puts the elements of its values into slots, and its check makes sure that they
fit. -/
structure Part.Encodes (p : Part) (slots : List InputSlot) : Prop where
  length_eq {v : Value} {fields : List Signal} (h : p.flatten v = .ok fields) :
    fields.length = slots.length
  input_eq {v : Value} {fields : List Signal} (h : p.flatten v = .ok fields) :
    p.input v = .ok (HashInput.place slots fields)
  fits {v : Value} {fields : List Signal} (h : p.flatten v = .ok fields)
    {runs after : List Run} (hCheck : p.check v runs = (.ok (), after)) :
    List.Forall₂ InputSlot.Fits fields slots

namespace Part

variable {p : Part} {parts : List Part} {slotss : List (List InputSlot)} {items : List Value}
  {fields : List Signal}

theorem inputAll_cons {v : Value} {input rest : HashInput} (hHead : p.input v = .ok input)
    (hRest : inputAll parts items = .ok rest) :
    inputAll (p :: parts) (v :: items) = .ok (input.append rest) := by
  unfold inputAll at hRest ⊢
  obtain ⟨inputs, hInputs, hConcat⟩ := bind_eq_ok.1 hRest
  cases hConcat
  refine bind_eq_ok.2 ⟨input :: inputs, ?_, rfl⟩
  rw [List.zip_cons_cons, List.mapM_cons]
  exact bind_eq_ok.2 ⟨input, hHead, bind_eq_ok.2 ⟨inputs, hInputs, rfl⟩⟩

/-- Items put their elements into the slots of their parts, one part after the other. -/
theorem encodes_items (h : List.Forall₂ Part.Encodes parts slotss)
    (hItems : items.length = parts.length) (hFlat : flattenAll parts items = .ok fields) :
    fields.length = slotss.flatten.length ∧
      inputAll parts items = .ok (HashInput.place slotss.flatten fields) ∧
      ∀ {runs after : List Run}, checkAll parts items runs = (.ok (), after) →
        List.Forall₂ InputSlot.Fits fields slotss.flatten := by
  induction h generalizing items fields with
  | nil => cases hFlat; exact ⟨rfl, rfl, fun _ => .nil⟩
  | @cons p slots parts slotss hHead _ ih =>
      cases items with
      | nil => cases hItems
      | cons v items =>
          obtain ⟨front, rest, hFront, hRest, rfl⟩ := flattenAll_cons.1 hFlat
          obtain ⟨hLength, hInput, hFits⟩ := ih (Nat.succ.inj hItems) hRest
          have hFrontLength := hHead.length_eq hFront
          rw [List.flatten_cons]
          refine ⟨?_, ?_, fun {runs after} hCheck => ?_⟩
          · rw [List.length_append, List.length_append, hFrontLength, hLength]
          · rw [HashInput.place_append hFrontLength]
            exact inputAll_cons (hHead.input_eq hFront) hInput
          · rw [checkAll_cons] at hCheck
            obtain ⟨_, between, hCheckHead, hCheckRest⟩ := bind_state_eq_ok hCheck
            exact List.rel_append (hHead.fits hFront hCheckHead) (hFits hCheckRest)

/-- A sequence puts the elements of its items into the slots of its parts. -/
theorem encodes_sequence (h : List.Forall₂ Part.Encodes parts slotss) (typeName : String) :
    (sequence typeName parts).Encodes slotss.flatten := by
  -- What flattens is an array with an item for each part, and every operation visits its items.
  have hOpen : ∀ {v fields}, (sequence typeName parts).flatten v = .ok fields →
      ∃ items, expectItems typeName parts.length v = .ok items ∧
        items.length = parts.length ∧ flattenAll parts items = .ok fields := by
    intro v fields hFlat
    obtain ⟨items, hItems, hAll⟩ := bind_eq_ok.1 hFlat
    exact ⟨items, hItems, (expectItems_eq_ok.1 hItems).2, hAll⟩
  refine ⟨?_, ?_, ?_⟩
  · intro v fields hFlat
    obtain ⟨items, -, hLength, hAll⟩ := hOpen hFlat
    exact (encodes_items h hLength hAll).1
  · intro v fields hFlat
    obtain ⟨items, hItems, hLength, hAll⟩ := hOpen hFlat
    show (expectItems typeName parts.length v >>= inputAll parts) = _
    rw [hItems]
    exact (encodes_items h hLength hAll).2.1
  · intro v fields hFlat runs after hCheck
    obtain ⟨items, hItems, hLength, hAll⟩ := hOpen hFlat
    have hCheckAll : (liftM (expectItems typeName parts.length v) >>= checkAll parts) runs =
        (.ok (), after) := hCheck
    rw [hItems] at hCheckAll
    exact (encodes_items h hLength hAll).2.2 hCheckAll

/-- Copies of a part put their elements into as many copies of its slots. -/
theorem encodes_replicated {slots : List InputSlot} (h : p.Encodes slots) (typeName : String)
    (count : Nat) :
    (replicated typeName p count).Encodes (List.replicate count slots).flatten := by
  have hSequence := encodes_sequence (forall₂_replicate h count) typeName
  refine ⟨?_, ?_, ?_⟩
  · intro v fields hFlat
    rw [replicated_flatten] at hFlat
    exact hSequence.length_eq hFlat
  · intro v fields hFlat
    rw [replicated_flatten] at hFlat
    rw [replicated_input]
    exact hSequence.input_eq hFlat
  · intro v fields hFlat runs after hCheck
    rw [replicated_flatten] at hFlat
    rw [replicated_check] at hCheck
    exact hSequence.fits hFlat hCheck

/-- The hash input of members is the hash input of the items found. -/
theorem inputMembers_eq {lookup : Lookup} {members : List (String × Part)}
    (h : Finds lookup (members.map Prod.fst) items) :
    inputMembers lookup members = inputAll (members.map Prod.snd) items := by
  have hWalk : (members.mapM fun (m : String × Part) => do m.2.input (← lookup m.1)) =
      ((members.map Prod.snd).zip items).mapM fun pv => pv.1.input pv.2 := by
    induction members generalizing items with
    | nil => cases h; rfl
    | cons m rest ih =>
        cases h with
        | cons hv hItems =>
            rw [List.mapM_cons, List.map_cons, List.zip_cons_cons, List.mapM_cons, ih hItems, hv]
            rfl
  unfold inputMembers inputAll
  exact congrArg (· >>= fun inputs => pure (HashInput.concat inputs)) hWalk

/-- A keyed structure that visits its members for its hash input puts their elements into
their slots. -/
theorem Keyed.encodes {members : List (String × Part)} {tag? : Option String}
    {lookup : Value → Lookup} (hp : p.Keyed members tag? lookup)
    (hInput : ∀ v items, Finds (lookup v) (members.map Prod.fst) items →
      p.input v = inputAll (members.map Prod.snd) items)
    (h : List.Forall₂ Part.Encodes (members.map Prod.snd) slotss) :
    p.Encodes slotss.flatten := by
  have hOpen : ∀ {v fields}, p.flatten v = .ok fields →
      ∃ items, Finds (lookup v) (members.map Prod.fst) items ∧
        items.length = (members.map Prod.snd).length ∧
        flattenAll (members.map Prod.snd) items = .ok fields := by
    intro v fields hFlat
    rw [hp.flatten_eq] at hFlat
    obtain ⟨items, hItems, hAll⟩ := flattenMembers_eq_ok.1 hFlat
    refine ⟨items, hItems, ?_, hAll⟩
    rw [hItems.length_eq, List.length_map, List.length_map]
  refine ⟨?_, ?_, ?_⟩
  · intro v fields hFlat
    obtain ⟨items, -, hLength, hAll⟩ := hOpen hFlat
    exact (encodes_items h hLength hAll).1
  · intro v fields hFlat
    obtain ⟨items, hFinds, hLength, hAll⟩ := hOpen hFlat
    rw [hInput v items hFinds]
    exact (encodes_items h hLength hAll).2.1
  · intro v fields hFlat runs after hCheck
    obtain ⟨items, hFinds, hLength, hAll⟩ := hOpen hFlat
    rw [(hp.visit hFinds).2] at hCheck
    exact (encodes_items h hLength hAll).2.2 hCheck

/-- A constant has no elements to put anywhere. -/
theorem encodes_constant (typeName : String) (json : Json) :
    (constant typeName json).Encodes [] where
  length_eq h := by
    obtain ⟨_, -, rfl⟩ := map_eq_ok.1 h
    rfl
  input_eq h := by
    obtain ⟨_, hv, rfl⟩ := map_eq_ok.1 h
    show (expectConstant typeName json _).map _ = _
    rw [hv]
    rfl
  fits h _ _ _ := by
    obtain ⟨_, -, rfl⟩ := map_eq_ok.1 h
    exact .nil

end Part

/-! ## Codecs -/

namespace Codec

variable {c : Codec}

/-- At a position, a codec without a hash input puts all its elements in whole. -/
theorem encodes_part {slots : List InputSlot}
    (h : c.capabilities.hashInput = true → c.uncounted.Encodes slots) :
    c.part.Encodes (InputSlot.placed c.capabilities.hashInput (c.width ()) slots) := by
  by_cases hCapable : c.capabilities.hashInput = true
  · have hSlots := h hCapable
    rw [InputSlot.placed_own hCapable]
    refine ⟨fun hFlat => hSlots.length_eq (flatten_of_toFields hFlat), fun {v fields} hFlat => ?_,
      fun hFlat _ _ hCheck => hSlots.fits (flatten_of_toFields hFlat) hCheck⟩
    show c.toInputOrFields v = _
    unfold toInputOrFields toInput
    rw [if_pos hCapable, if_pos hCapable]
    exact hSlots.input_eq (flatten_of_toFields hFlat)
  · have hWhole : ∀ {v fields}, c.part.flatten v = .ok fields →
        InputSlot.placed c.capabilities.hashInput (c.width ()) slots =
          List.replicate fields.length .whole := by
      intro v fields hFlat
      obtain ⟨width, hWidth, hLength⟩ := length_of_toFields hFlat
      rw [InputSlot.placed_whole hCapable hWidth, hLength]
    refine ⟨fun hFlat => ?_, fun {v fields} hFlat => ?_, fun hFlat _ _ _ => ?_⟩
    · rw [hWhole hFlat, List.length_replicate]
    · show c.toInputOrFields v = _
      rw [hWhole hFlat, HashInput.place_replicate, toInputOrFields, if_neg hCapable,
        show c.toFields v = .ok fields from hFlat]
      rfl
    · rw [hWhole hFlat]
      exact List.forall₂_iff_get.2 ⟨by simp, fun i _ _ => by simp [InputSlot.Fits]⟩

theorem encodes_ofPart {p : Part} {slots : List InputSlot} (h : p.Encodes slots)
    (capabilities : Capabilities) : (ofPart p capabilities).uncounted.Encodes slots :=
  ⟨h.length_eq, h.input_eq, h.fits⟩

/-- An operation that visits the members of a composite visits those found in the value. -/
theorem onMembers_eq {α : Type} {name : String} {members : List (String × Codec)} {nothing : α}
    {visit : Part.Lookup → Except Error α} {v : Value} {items : List Value}
    (h : Part.Finds (lookupIn name v) ((memberParts members).map Prod.fst) items)
    (hNothing : members = [] → visit (lookupIn name v) = .ok nothing) :
    onMembers name members nothing visit v = visit (lookupIn name v) := by
  cases members with
  | nil => exact (hNothing rfl).symm
  | cons m rest =>
      cases h with
      | cons hFirst _ =>
          obtain ⟨record, hRecord, -⟩ := lookupIn_eq_ok.1 hFirst
          have hLookup : lookupIn name v = lookupMember name record := by
            unfold lookupIn
            rw [hRecord]
            rfl
          rw [hLookup]
          show (expectRecord name v >>= fun record => visit (lookupMember name record)) = _
          rw [hRecord]
          rfl

theorem encodes_composite (name : String) (json : Bool) {members : List (String × Codec)}
    {slotss : List (List InputSlot)}
    (h : List.Forall₂ Part.Encodes ((memberParts members).map Prod.snd) slotss) :
    (composite name json members).uncounted.Encodes slotss.flatten := by
  refine (keyed_composite name json members).encodes (fun v items hFinds => ?_) h
  show onMembers name members .empty
    (fun lookup => Part.inputMembers lookup (memberParts members)) v = _
  rw [onMembers_eq hFinds fun hNone => by rw [hNone]; rfl, Part.inputMembers_eq hFinds]

end Codec

/-- The slots of a built-in type: a boolean is one bit, an unsigned integer as many as it has. -/
def Leaf.slots : Leaf → List InputSlot
  | .field => [.whole]
  | .boolean => [.packed 1 (by decide)]
  | .uint32 => [.packed 32 (by decide)]
  | .opaqueHost => []

/-- A built-in type puts its elements into its slots, and its rule keeps them there. -/
theorem Leaf.encodes (leaf : Leaf) : leaf.codec.uncounted.Encodes leaf.slots where
  length_eq h := by cases flattens_of_eq_ok h <;> rfl
  input_eq h := by
    cases flattens_of_eq_ok h with
    | opaqueHost hHost =>
        show (Codec.expectOpaque _).map _ = _
        rw [hHost]
        rfl
    | _ => rfl
  fits h _ _ hCheck := by
    cases flattens_of_eq_ok h with
    | field s => exact .cons trivial .nil
    | boolean b =>
        refine .cons (fun x hx => ?_) .nil
        have hPasses : Rule.boolean.Passes b.signal := Rule.passes_of_assert_ok hCheck
        have hBoolean : x.isBoolean = true := hPasses x hx
        rcases Bool.or_eq_true_iff.1 hBoolean with hZero | hOne
        · rw [eq_of_beq hZero]; decide
        · rw [eq_of_beq hOne]; decide
    | uint32 s =>
        refine .cons (fun x hx => ?_) .nil
        have hPasses : (Rule.range 32).Passes s := Rule.passes_of_assert_ok hCheck
        have hFits : x.fits 32 = true := hPasses x hx
        simpa [Element.fits] using hFits
    | opaqueHost _ => exact .nil

/-! ## Types -/

mutual

/-- The slots of a type with a hash input, given the widths and slots of registered types. -/
def Descriptor.slots (widthOf : String → Except Error Width) (slotsOf : String → List InputSlot) :
    Descriptor → List InputSlot
  | .leaf type => type.slots
  | .array element length =>
    (List.replicate length (InputSlot.placed element.supportsHashInput (element.width widthOf)
      (element.slots widthOf slotsOf))).flatten
  | .tuple elements => Descriptor.slotsOfAll widthOf slotsOf elements
  | .structural root => root.slots widthOf slotsOf
  | .composite name _ => slotsOf name
  | .unregistered _ | .plain _ | .misdeclared _ _ => []

/-- The slots of types inside of a larger one, one type after the other. -/
def Descriptor.slotsOfAll (widthOf : String → Except Error Width)
    (slotsOf : String → List InputSlot) : List Descriptor → List InputSlot
  | [] => []
  | d :: rest =>
    InputSlot.placed d.supportsHashInput (d.width widthOf) (d.slots widthOf slotsOf) ++
      Descriptor.slotsOfAll widthOf slotsOf rest

/-- The slots of a shape. -/
def Shape.slots (widthOf : String → Except Error Width) (slotsOf : String → List InputSlot) :
    Shape → List InputSlot
  | .leaf type _ =>
    InputSlot.placed type.supportsHashInput (type.width widthOf) (type.slots widthOf slotsOf)
  | .array items => Shape.slotsOfItems widthOf slotsOf items
  | .object members => Shape.slotsOfMembers widthOf slotsOf members
  | .constant _ => []

/-- The slots of items, one after the other. -/
def Shape.slotsOfItems (widthOf : String → Except Error Width)
    (slotsOf : String → List InputSlot) : List Shape → List InputSlot
  | [] => []
  | s :: rest => s.slots widthOf slotsOf ++ Shape.slotsOfItems widthOf slotsOf rest

/-- The slots of members, one after the other. -/
def Shape.slotsOfMembers (widthOf : String → Except Error Width)
    (slotsOf : String → List InputSlot) : List (String × Shape) → List InputSlot
  | [] => []
  | (_, s) :: rest => s.slots widthOf slotsOf ++ Shape.slotsOfMembers widthOf slotsOf rest

end

mutual

/-- The codec of a type has a hash input if the type has one. -/
theorem Descriptor.codec_hashInput (names : Names) :
    ∀ d : Descriptor, (d.codec names).capabilities.hashInput = d.supportsHashInput
  | .leaf _ => rfl
  | .array element _ => Descriptor.codec_hashInput names element
  | .tuple elements => by
      rw [Descriptor.codec_tuple]
      exact Descriptor.codecs_hashInput names elements
  | .structural _ => rfl
  | .composite _ _ => rfl
  | .unregistered _ => rfl
  | .plain _ => rfl
  | .misdeclared _ _ => rfl

theorem Descriptor.codecs_hashInput (names : Names) :
    ∀ ds : List Descriptor,
      (ds.map (·.codec names)).all (·.capabilities.hashInput) =
        Descriptor.supportsHashInput.allSupport ds
  | [] => rfl
  | d :: rest => by
      rw [List.map_cons, List.all_cons, Descriptor.codec_hashInput names d,
        Descriptor.codecs_hashInput names rest]
      rfl

end

/-- The registered types of a name put their elements into the slots of the name. -/
def Names.Encode (names : Names) (slotsOf : String → List InputSlot) (name : String) : Prop :=
  ∀ json, (names.composite name json).uncounted.Encodes (slotsOf name)

/-- Inside of a larger type, a type puts its elements into its slots or in whole. -/
theorem Descriptor.encodes_part {names : Names} {slotsOf : String → List InputSlot}
    (d : Descriptor) (h : d.supportsHashInput = true →
      (d.codec names).uncounted.Encodes (d.slots names.width slotsOf)) :
    (d.codec names).part.Encodes (InputSlot.placed d.supportsHashInput (d.width names.width)
      (d.slots names.width slotsOf)) := by
  rw [← Descriptor.codec_hashInput names d] at h ⊢
  rw [← Descriptor.codec_width]
  exact Codec.encodes_part h

mutual

/-- A type with a hash input puts its elements into its slots if the registered types do that it
mentions. -/
theorem Descriptor.encodes {names : Names} {slotsOf : String → List InputSlot} :
    ∀ d : Descriptor, (∀ name ∈ d.mentions, names.Encode slotsOf name) →
      d.supportsHashInput = true →
        (d.codec names).uncounted.Encodes (d.slots names.width slotsOf)
  | .leaf type, _, _ => type.encodes
  | .array element length, h, _ =>
      Codec.encodes_ofPart
        (Part.encodes_replicated (element.encodes_part (Descriptor.encodes element h)) _ length) _
  | .tuple elements, h, _ => by
      obtain ⟨slotss, hSlots, hAll⟩ := Descriptor.encodes_all elements h
      rw [Descriptor.codec_tuple, Descriptor.slots, ← hSlots]
      exact Codec.encodes_ofPart (Part.encodes_sequence hAll _) _
  | .structural root, h, _ => Codec.encodes_ofPart (Shape.encodes root h) _
  | .composite name json, h, _ => h name (List.mem_singleton_self name) json
  | .unregistered name, _, _ => by
      have hNone : List.Forall₂ Part.Encodes
          ((Codec.memberParts ([] : List (String × Codec))).map Prod.snd) [] := .nil
      exact Codec.encodes_composite name true hNone

/-- Types put their elements into their slots, one after the other. -/
theorem Descriptor.encodes_all {names : Names} {slotsOf : String → List InputSlot} :
    ∀ ds : List Descriptor, (∀ name ∈ Descriptor.mentionsOfAll ds, names.Encode slotsOf name) →
      ∃ slotss : List (List InputSlot),
        slotss.flatten = Descriptor.slotsOfAll names.width slotsOf ds ∧
          List.Forall₂ Part.Encodes ((ds.map (·.codec names)).map Codec.part) slotss
  | [], _ => ⟨[], rfl, .nil⟩
  | d :: rest, h => by
      obtain ⟨slotss, hSlots, hAll⟩ := Descriptor.encodes_all rest fun name hName =>
        h name (List.mem_append_right _ hName)
      have hHead := d.encodes_part
        (Descriptor.encodes d fun name hName => h name (List.mem_append_left _ hName))
      exact ⟨_ :: slotss, congrArg (_ ++ ·) hSlots, .cons hHead hAll⟩

/-- A shape puts its elements into its slots if the registered types do that it mentions. -/
theorem Shape.encodes {names : Names} {slotsOf : String → List InputSlot} :
    ∀ s : Shape, (∀ name ∈ s.mentions, names.Encode slotsOf name) →
      (s.part names).Encodes (s.slots names.width slotsOf)
  | .leaf type _, h => by
      have hType := type.encodes_part (Descriptor.encodes type h)
      exact ⟨hType.length_eq, hType.input_eq, hType.fits⟩
  | .array items, h => by
      obtain ⟨slotss, hSlots, hAll⟩ := Shape.encodes_items items h
      rw [Shape.part_array, Shape.slots, ← hSlots]
      exact Part.encodes_sequence hAll _
  | .object members, h => by
      obtain ⟨slotss, hSlots, hAll⟩ := Shape.encodes_members members h
      rw [Shape.part_object, Shape.slots, ← hSlots]
      exact (Part.keyed_object _ _).encodes (fun v items hFinds => Part.inputMembers_eq hFinds) hAll
  | .constant json, _ => Part.encodes_constant _ json

theorem Shape.encodes_items {names : Names} {slotsOf : String → List InputSlot} :
    ∀ items : List Shape, (∀ name ∈ Shape.mentionsOfItems items, names.Encode slotsOf name) →
      ∃ slotss : List (List InputSlot),
        slotss.flatten = Shape.slotsOfItems names.width slotsOf items ∧
          List.Forall₂ Part.Encodes (items.map (·.part names)) slotss
  | [], _ => ⟨[], rfl, .nil⟩
  | s :: rest, h => by
      obtain ⟨slotss, hSlots, hAll⟩ := Shape.encodes_items rest fun name hName =>
        h name (List.mem_append_right _ hName)
      exact ⟨_ :: slotss, congrArg (_ ++ ·) hSlots,
        .cons (Shape.encodes s fun name hName => h name (List.mem_append_left _ hName)) hAll⟩

theorem Shape.encodes_members {names : Names} {slotsOf : String → List InputSlot} :
    ∀ members : List (String × Shape),
      (∀ name ∈ Shape.mentionsOfMembers members, names.Encode slotsOf name) →
        ∃ slotss : List (List InputSlot),
          slotss.flatten = Shape.slotsOfMembers names.width slotsOf members ∧
            List.Forall₂ Part.Encodes
              ((members.map fun m => (m.1, m.2.part names)).map Prod.snd) slotss
  | [], _ => ⟨[], rfl, .nil⟩
  | (_, s) :: rest, h => by
      obtain ⟨slotss, hSlots, hAll⟩ := Shape.encodes_members rest fun name hName =>
        h name (List.mem_append_right _ hName)
      exact ⟨_ :: slotss, congrArg (_ ++ ·) hSlots,
        .cons (Shape.encodes s fun name hName => h name (List.mem_append_left _ hName)) hAll⟩

end

mutual

/-- Slots depend on nothing but the slots of the names that are mentioned. -/
theorem Descriptor.slots_congr {widthOf : String → Except Error Width}
    {f g : String → List InputSlot} :
    ∀ d : Descriptor, (∀ name ∈ d.mentions, f name = g name) →
      d.slots widthOf f = d.slots widthOf g
  | .leaf _, _ => rfl
  | .array element _, h => by
      rw [Descriptor.slots, Descriptor.slots, Descriptor.slots_congr element h]
  | .tuple elements, h => Descriptor.slotsOfAll_congr elements h
  | .structural root, h => Shape.slots_congr root h
  | .composite name _, h => h name (List.mem_singleton_self name)
  | .unregistered _, _ => rfl
  | .plain _, _ => rfl
  | .misdeclared _ _, _ => rfl

theorem Descriptor.slotsOfAll_congr {widthOf : String → Except Error Width}
    {f g : String → List InputSlot} :
    ∀ ds : List Descriptor, (∀ name ∈ Descriptor.mentionsOfAll ds, f name = g name) →
      Descriptor.slotsOfAll widthOf f ds = Descriptor.slotsOfAll widthOf g ds
  | [], _ => rfl
  | d :: rest, h => by
      rw [Descriptor.slotsOfAll, Descriptor.slotsOfAll,
        Descriptor.slots_congr d fun name hName => h name (List.mem_append_left _ hName),
        Descriptor.slotsOfAll_congr rest fun name hName => h name (List.mem_append_right _ hName)]

theorem Shape.slots_congr {widthOf : String → Except Error Width} {f g : String → List InputSlot} :
    ∀ s : Shape, (∀ name ∈ s.mentions, f name = g name) → s.slots widthOf f = s.slots widthOf g
  | .leaf type _, h => by
      rw [Shape.slots, Shape.slots, Descriptor.slots_congr type h]
  | .array items, h => Shape.slotsOfItems_congr items h
  | .object members, h => Shape.slotsOfMembers_congr members h
  | .constant _, _ => rfl

theorem Shape.slotsOfItems_congr {widthOf : String → Except Error Width}
    {f g : String → List InputSlot} :
    ∀ items : List Shape, (∀ name ∈ Shape.mentionsOfItems items, f name = g name) →
      Shape.slotsOfItems widthOf f items = Shape.slotsOfItems widthOf g items
  | [], _ => rfl
  | s :: rest, h => by
      rw [Shape.slotsOfItems, Shape.slotsOfItems,
        Shape.slots_congr s fun name hName => h name (List.mem_append_left _ hName),
        Shape.slotsOfItems_congr rest fun name hName => h name (List.mem_append_right _ hName)]

theorem Shape.slotsOfMembers_congr {widthOf : String → Except Error Width}
    {f g : String → List InputSlot} :
    ∀ members : List (String × Shape),
      (∀ name ∈ Shape.mentionsOfMembers members, f name = g name) →
        Shape.slotsOfMembers widthOf f members = Shape.slotsOfMembers widthOf g members
  | [], _ => rfl
  | (_, s) :: rest, h => by
      rw [Shape.slotsOfMembers, Shape.slotsOfMembers,
        Shape.slots_congr s fun name hName => h name (List.mem_append_left _ hName),
        Shape.slotsOfMembers_congr rest fun name hName => h name (List.mem_append_right _ hName)]

end

namespace Registry

variable {r : Registry}

/-- The slots of a name, within a number of nested names. -/
def slotsWithin (r : Registry) : Nat → String → List InputSlot
  | 0, _ => []
  | depth + 1, name =>
    Descriptor.slotsOfAll r.widthOf (r.slotsWithin depth) ((r.schema name).map (·.2))

/-- The slots of a name. -/
def slotsOf (r : Registry) (name : String) : List InputSlot := r.slotsWithin r.depthBound name

/-- The slots of a type. -/
def slots (r : Registry) (d : Descriptor) : List InputSlot := d.slots r.widthOf r.slotsOf

/-- The slots of a registered type that does not contain itself are those of its members. -/
theorem slots_composite {name : String} (h : r.Grounded name) :
    r.slotsOf name = Descriptor.slotsOfAll r.widthOf r.slotsOf ((r.schema name).map (·.2)) := by
  have hStable : r.slotsWithin r.depthBound name = r.slotsWithin (r.depthBound + 1) name := by
    refine stable_of_grounded (fun j k name hAgree => ?_) h (Nat.le_refl _) (Nat.le_succ _)
    exact Descriptor.slotsOfAll_congr _ fun other hOther => hAgree other (mentions_of_mem hOther)
  exact hStable

/-- A registered type that does not contain itself puts its elements into its slots. -/
theorem encodes_composite {name : String} (h : r.Grounded name) :
    r.names.Encode r.slotsOf name := by
  induction h with
  | intro name hAcc ih =>
      intro json
      have hComposite : r.names.composite name json = Codec.composite name json
          ((r.schema name).map fun m => (m.1, r.codec m.2)) :=
        codec_composite (Acc.intro name hAcc) json
      obtain ⟨slotss, hSlots, hAll⟩ := Descriptor.encodes_all ((r.schema name).map (·.2))
        fun other hOther => ih other (mentions_of_mem hOther)
      have hOwn : r.slotsOf name = slotss.flatten :=
        (slots_composite (Acc.intro name hAcc)).trans hSlots.symm
      rw [hComposite, hOwn]
      refine Codec.encodes_composite name json ?_
      have hParts : (Codec.memberParts ((r.schema name).map fun m => (m.1, r.codec m.2))).map
          Prod.snd = (((r.schema name).map (·.2)).map (·.codec r.names)).map Codec.part := by
        rw [Codec.memberParts, List.map_map, List.map_map, List.map_map, List.map_map]
        rfl
      rwa [hParts]

theorem codec_hashInput (d : Descriptor) :
    (r.codec d).capabilities.hashInput = d.supportsHashInput :=
  d.codec_hashInput r.names

/-- A type with a hash input puts the elements of its values into its slots. -/
theorem encodes_slots {d : Descriptor} (hGrounded : ∀ name ∈ d.mentions, r.Grounded name)
    (hInput : d.supportsHashInput = true) : (r.codec d).uncounted.Encodes (r.slots d) :=
  Descriptor.encodes d (fun name hName => encodes_composite (hGrounded name hName)) hInput

/-- A type with a hash input has slots for the elements of its values. -/
theorem encodes_codec {d : Descriptor} (hGrounded : ∀ name ∈ d.mentions, r.Grounded name)
    (hInput : d.supportsHashInput = true) : ∃ slots, (r.codec d).uncounted.Encodes slots :=
  ⟨_, encodes_slots hGrounded hInput⟩

end Registry

end TypedCircuit
