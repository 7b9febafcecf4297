import TypedCircuit.Proofs.Hash.Placement
import TypedCircuit.Proofs.Registry.Widths

/-!
# Hash inputs are made of the elements

What a value is hashed as is what it flattens to, put into the slots of its type: every element is
there once, and the whole ones and the packed ones are each in order. So a value that flattens is
hashed.

The converse needs more. Both operations open a value in the same way and refuse the same forms,
but only flattening counts what it has found. The count is right if the leaves of shapes have the
widths that their types have, which is so when a shape is made. A type that is a leaf of a shape
may gain members later; then the shape still hashes its values and refuses to flatten them.

## Main results

* `Part.Reflects` — what is hashed is flattened, closed under all ways to assemble parts.
* `Descriptor.Measured.slots_length` — a measured type has as many slots as elements.
* `Registry.input_partitions` — the hash input of a value is a partition of its elements.
-/

namespace TypedCircuit

/-! ## Partitions -/

namespace InputSlot

variable {α : Type}

theorem wholes_sublist (slots : List InputSlot) (xs : List α) : (wholes slots xs).Sublist xs := by
  induction xs generalizing slots with
  | nil => cases slots with
    | nil => exact .slnil
    | cons slot _ => cases slot <;> exact .slnil
  | cons x rest ih =>
      cases slots with
      | nil => exact List.nil_sublist _
      | cons slot slots =>
          cases slot with
          | whole => exact (ih slots).cons_cons x
          | packed => exact (ih slots).cons x

theorem smalls_sublist (slots : List InputSlot) (xs : List α) :
    ((smalls slots xs).map Prod.fst).Sublist xs := by
  induction xs generalizing slots with
  | nil => cases slots with
    | nil => exact .slnil
    | cons slot _ => cases slot <;> exact .slnil
  | cons x rest ih =>
      cases slots with
      | nil => exact List.nil_sublist _
      | cons slot slots =>
          cases slot with
          | whole => exact (ih slots).cons x
          | packed => exact (ih slots).cons_cons x

/-- With a slot for each of them, no element is lost or doubled. -/
theorem wholes_smalls_perm {slots : List InputSlot} {xs : List α} (h : xs.length = slots.length) :
    (wholes slots xs ++ (smalls slots xs).map Prod.fst).Perm xs := by
  induction xs generalizing slots with
  | nil =>
      obtain rfl := List.length_eq_zero_iff.1 h.symm
      exact .refl _
  | cons x rest ih =>
      obtain ⟨slot, slots, rfl⟩ := List.exists_cons_of_length_eq_add_one h.symm
      have hRest := ih (Nat.succ.inj h)
      cases slot with
      | whole => exact hRest.cons x
      | packed => exact List.perm_middle.trans (hRest.cons x)

theorem placed_length {capable : Bool} {found : Except Error Width} {width : Width}
    {own : List InputSlot} (hWidth : found = .ok width)
    (h : capable = true → own.length = width.fields) :
    (placed capable found own).length = width.fields := by
  by_cases hCapable : capable = true
  · rw [placed_own hCapable, h hCapable]
  · rw [placed_whole hCapable hWidth, List.length_replicate]

end InputSlot

/-! ## What is hashed is flattened -/

/-- If every step of a walk succeeds whenever that of another walk does, so does the walk. -/
theorem exists_mapM_of_mapM {ε α β γ : Type} {f : α → Except ε β} {g : α → Except ε γ}
    {xs : List α} {ys : List β} (h : xs.mapM f = .ok ys)
    (hStep : ∀ x ∈ xs, ∀ y, f x = .ok y → ∃ z, g x = .ok z) : ∃ zs, xs.mapM g = .ok zs := by
  obtain ⟨zs, hAll⟩ := exists_forall₂ fun x hx => by
    obtain ⟨y, hy⟩ := exists_of_mapM_ok h hx
    exact hStep x hx y hy
  exact ⟨zs, mapM_eq_ok.2 hAll⟩

/-- A part flattens every value that it has a hash input for. -/
def Part.Reflects (p : Part) : Prop :=
  ∀ v input, p.input v = .ok input → ∃ fields, p.flatten v = .ok fields

namespace Part

variable {p : Part} {parts : List Part} {members : List (String × Part)}

theorem reflects_sequence (h : ∀ p ∈ parts, p.Reflects) (typeName : String) :
    (sequence typeName parts).Reflects := by
  intro v input hInput
  obtain ⟨items, hItems, hAll⟩ := bind_eq_ok.1 hInput
  obtain ⟨inputs, hInputs, -⟩ := bind_eq_ok.1 hAll
  obtain ⟨chunks, hChunks⟩ := exists_mapM_of_mapM hInputs fun pv hpv =>
    h pv.1 (List.of_mem_zip hpv).1 pv.2
  exact ⟨_, bind_eq_ok.2 ⟨items, hItems, bind_eq_ok.2 ⟨chunks, hChunks, rfl⟩⟩⟩

theorem reflects_replicated (h : p.Reflects) (typeName : String) (count : Nat) :
    (replicated typeName p count).Reflects := by
  intro v input hInput
  rw [replicated_input] at hInput
  rw [replicated_flatten]
  exact reflects_sequence (fun q hq => (List.eq_of_mem_replicate hq) ▸ h) typeName v input hInput

theorem flattenMembers_of_inputMembers (h : ∀ m ∈ members, m.2.Reflects) {lookup : Lookup}
    {input : HashInput} (hInput : inputMembers lookup members = .ok input) :
    ∃ fields, flattenMembers lookup members = .ok fields := by
  obtain ⟨inputs, hInputs, -⟩ := bind_eq_ok.1 hInput
  obtain ⟨chunks, hChunks⟩ : ∃ chunks,
      (members.mapM fun m => lookup m.1 >>= m.2.flatten) = .ok chunks := by
    refine exists_mapM_of_mapM hInputs fun m hm one hOne => ?_
    obtain ⟨v, hFound, hOne⟩ := bind_eq_ok.1 hOne
    obtain ⟨fields, hFlat⟩ := h m hm v one hOne
    exact ⟨fields, bind_eq_ok.2 ⟨v, hFound, hFlat⟩⟩
  exact ⟨_, bind_eq_ok.2 ⟨chunks, hChunks, rfl⟩⟩

theorem reflects_object (h : ∀ m ∈ members, m.2.Reflects) (typeName : String) :
    (object typeName members).Reflects :=
  fun _ _ hInput => flattenMembers_of_inputMembers h hInput

theorem reflects_constant (typeName : String) (json : Json) :
    (constant typeName json).Reflects := by
  intro v input hInput
  obtain ⟨_, hv, -⟩ := map_eq_ok.1 hInput
  exact ⟨[], map_eq_ok.2 ⟨_, hv, rfl⟩⟩

end Part

namespace Codec

variable {c : Codec}

/-- Inside of a larger type, a type that counts right flattens what it has a hash input for. -/
theorem reflects_part {width : Width} (hWidth : c.width () = .ok width)
    (h : c.capabilities.hashInput = true → c.uncounted.Reflects ∧
      ∀ v fields, c.flatten v = .ok fields → fields.length = width.fields) : c.part.Reflects := by
  intro v input hInput
  have hEither : c.toInputOrFields v = .ok input := hInput
  unfold toInputOrFields toInput at hEither
  by_cases hCapable : c.capabilities.hashInput = true
  · obtain ⟨hReflects, hCount⟩ := h hCapable
    rw [if_pos hCapable, if_pos hCapable] at hEither
    obtain ⟨fields, hFlat⟩ := hReflects v input hEither
    exact ⟨fields, toFields_of_flatten hFlat hWidth (hCount v fields hFlat)⟩
  · rw [if_neg hCapable] at hEither
    obtain ⟨fields, hFields, -⟩ := map_eq_ok.1 hEither
    exact ⟨fields, hFields⟩

theorem reflects_composite (name : String) (json : Bool) {members : List (String × Codec)}
    (h : ∀ m ∈ members, m.2.part.Reflects) :
    (composite name json members).uncounted.Reflects := by
  intro v input hInput
  have hVisit : onMembers name members .empty
      (fun lookup => Part.inputMembers lookup (memberParts members)) v = .ok input := hInput
  show ∃ fields, onMembers name members []
    (fun lookup => Part.flattenMembers lookup (memberParts members)) v = .ok fields
  unfold onMembers at hVisit ⊢
  split
  · exact ⟨[], rfl⟩
  · next hSome =>
    rw [if_neg hSome] at hVisit
    obtain ⟨record, hRecord, hMembers⟩ := bind_eq_ok.1 hVisit
    have hParts : ∀ m ∈ memberParts members, m.2.Reflects := by
      intro m hm
      obtain ⟨member, hMember, rfl⟩ := List.mem_map.1 hm
      exact h member hMember
    obtain ⟨fields, hFlat⟩ := Part.flattenMembers_of_inputMembers hParts hMembers
    exact ⟨fields, bind_eq_ok.2 ⟨record, hRecord, hFlat⟩⟩

end Codec

theorem Leaf.reflects (leaf : Leaf) : leaf.codec.uncounted.Reflects := by
  intro v input hInput
  cases leaf <;>
  · obtain ⟨_, hv, -⟩ := map_eq_ok.1 hInput
    exact ⟨_, map_eq_ok.2 ⟨_, hv, rfl⟩⟩

/-! ## Measured types -/

mutual

/-- A type in which the leaves of shapes have the widths that their types have. What has no hash
input is flattened to be hashed, and nothing is asked of it. -/
inductive Descriptor.Measured (r : Registry) : Descriptor → Prop where
  | leaf (type : Leaf) : Descriptor.Measured r (.leaf type)
  | array {element : Descriptor} (h : Descriptor.Measured r element) (length : Nat) :
    Descriptor.Measured r (.array element length)
  | tuple {elements : List Descriptor} (h : ∀ d ∈ elements, Descriptor.Measured r d) :
    Descriptor.Measured r (.tuple elements)
  | structural {root : Shape} (h : Shape.Measured r root) :
    Descriptor.Measured r (.structural root)
  | composite {name : String} (h : ∀ m ∈ r.schema name, Descriptor.Measured r m.2) (json : Bool) :
    Descriptor.Measured r (.composite name json)
  | unregistered (name : String) : Descriptor.Measured r (.unregistered name)
  | incapable {d : Descriptor} (h : d.supportsHashInput = false) : Descriptor.Measured r d

/-- A shape of which the leaves have the widths that their types have. -/
inductive Shape.Measured (r : Registry) : Shape → Prop where
  | leaf {type : Descriptor} {width : Width} (h : Descriptor.Measured r type)
    (hWidth : r.width type = .ok width) : Shape.Measured r (.leaf type width)
  | array {items : List Shape} (h : ∀ s ∈ items, Shape.Measured r s) :
    Shape.Measured r (.array items)
  | object {members : List (String × Shape)} (h : ∀ m ∈ members, Shape.Measured r m.2) :
    Shape.Measured r (.object members)
  | constant (json : Json) : Shape.Measured r (.constant json)

end

section

variable {r : Registry}

/-- A type has as many slots as elements. -/
def Descriptor.Fills (r : Registry) (d : Descriptor) : Prop :=
  ∀ width, r.width d = .ok width → (r.slots d).length = width.fields

theorem Descriptor.slotsOfAll_length {ds : List Descriptor}
    (h : ∀ d ∈ ds, d.supportsHashInput = true → d.Fills r) {total width : Width}
    (hTotal : Descriptor.totalWidth r.widthOf total ds = .ok width) :
    total.fields + (Descriptor.slotsOfAll r.widthOf r.slotsOf ds).length = width.fields := by
  induction ds generalizing total with
  | nil => cases hTotal; rfl
  | cons d rest ih =>
      obtain ⟨hHead, hRest⟩ := List.forall_mem_cons.1 h
      rw [Descriptor.totalWidth] at hTotal
      cases hWidth : d.width r.widthOf with
      | error e =>
          rw [hWidth] at hTotal
          cases hTotal
      | ok own =>
          rw [hWidth] at hTotal
          have hOwn := InputSlot.placed_length hWidth fun hCapable => hHead hCapable own hWidth
          have hMore := ih hRest hTotal
          rw [Descriptor.slotsOfAll, List.length_append, ← hMore, ← Nat.add_assoc]
          exact congrArg (total.fields + · + _) hOwn

theorem Shape.slotsOfItems_length {items : List Shape}
    (h : ∀ s ∈ items, (s.slots r.widthOf r.slotsOf).length = s.width.fields) (total : Width) :
    total.fields + (Shape.slotsOfItems r.widthOf r.slotsOf items).length =
      (Shape.itemsWidth total items).fields := by
  induction items generalizing total with
  | nil => rfl
  | cons s rest ih =>
      obtain ⟨hHead, hRest⟩ := List.forall_mem_cons.1 h
      rw [Shape.slotsOfItems, Shape.itemsWidth, List.length_append, hHead, ← Nat.add_assoc]
      exact ih hRest (total + s.width)

theorem Shape.slotsOfMembers_length {members : List (String × Shape)}
    (h : ∀ m ∈ members, (m.2.slots r.widthOf r.slotsOf).length = m.2.width.fields)
    (total : Width) :
    total.fields + (Shape.slotsOfMembers r.widthOf r.slotsOf members).length =
      (Shape.membersWidth total members).fields := by
  induction members generalizing total with
  | nil => rfl
  | cons m rest ih =>
      obtain ⟨hHead, hRest⟩ := List.forall_mem_cons.1 h
      rw [Shape.slotsOfMembers, Shape.membersWidth, List.length_append, hHead, ← Nat.add_assoc]
      exact ih hRest (total + m.2.width)

mutual

/-- A measured type with a hash input has as many slots as elements. -/
theorem Descriptor.Measured.slots_length {d : Descriptor} :
    d.Measured r → (∀ name ∈ d.mentions, r.Grounded name) → d.supportsHashInput = true → d.Fills r
  | .leaf type, _, _ => by
      intro width hWidth
      cases hWidth
      cases type <;> rfl
  | .array h length, hGrounded, hCapable => by
      intro width hWidth
      obtain ⟨own, hOwn, rfl⟩ := map_eq_ok.1 hWidth
      have hLength := InputSlot.placed_length hOwn fun hElement =>
        h.slots_length hGrounded hElement own hOwn
      show (List.replicate length _).flatten.length = length * own.fields
      rw [List.length_flatten, List.map_replicate, List.sum_replicate_nat]
      exact congrArg (length * ·) hLength
  | .tuple h, hGrounded, _ => by
      intro width hWidth
      refine (Nat.zero_add _).symm.trans (Descriptor.slotsOfAll_length (fun d hd => ?_) hWidth)
      exact (h d hd).slots_length fun name hName =>
        hGrounded name (Descriptor.mem_mentionsOfAll.2 ⟨d, hd, hName⟩)
  | .structural h, hGrounded, _ => by
      intro width hWidth
      cases hWidth
      exact h.slots_length hGrounded
  | .composite h json, hGrounded, _ => by
      intro width hWidth
      have hName := hGrounded _ (List.mem_singleton_self _)
      refine (congrArg List.length (Registry.slots_composite hName)).trans ?_
      refine (Nat.zero_add _).symm.trans (Descriptor.slotsOfAll_length (fun d hd => ?_)
        (Registry.widthOf_unroll hWidth))
      obtain ⟨m, hm, rfl⟩ := List.mem_map.1 hd
      exact (h m hm).slots_length fun other hOther => hName.of_mentions ⟨m, hm, hOther⟩
  | .unregistered name, _, _ => by
      intro width hWidth
      cases hWidth
      rfl
  | .incapable h, _, hCapable => by
      rw [h] at hCapable
      cases hCapable

/-- A measured shape has as many slots as elements. -/
theorem Shape.Measured.slots_length {s : Shape} :
    s.Measured r → (∀ name ∈ s.mentions, r.Grounded name) →
      (s.slots r.widthOf r.slotsOf).length = s.width.fields
  | .leaf h hWidth, hGrounded =>
      InputSlot.placed_length hWidth fun hCapable => h.slots_length hGrounded hCapable _ hWidth
  | .array h, hGrounded =>
      (Nat.zero_add _).symm.trans (Shape.slotsOfItems_length (fun s hs =>
        (h s hs).slots_length fun name hName =>
          hGrounded name (Shape.mem_mentionsOfItems.2 ⟨s, hs, hName⟩)) Width.zero)
  | .object h, hGrounded =>
      (Nat.zero_add _).symm.trans (Shape.slotsOfMembers_length (fun m hm =>
        (h m hm).slots_length fun name hName =>
          hGrounded name (Shape.mem_mentionsOfMembers.2 ⟨m, hm, hName⟩)) Width.zero)
  | .constant _, _ => rfl

end

/-- Inside of a larger type, a measured type flattens what it has a hash input for. -/
theorem Descriptor.Measured.reflects_part {d : Descriptor} (h : d.Measured r)
    (hGrounded : ∀ name ∈ d.mentions, r.Grounded name)
    (hReflects : d.supportsHashInput = true → (r.codec d).uncounted.Reflects) :
    (r.codec d).part.Reflects := by
  obtain ⟨width, hWidth⟩ := d.exists_width_iff.2 fun name hName =>
    (hGrounded name (Descriptor.outerMentions_subset d hName)).sized
  refine Codec.reflects_part ((Descriptor.codec_width r.names d).trans hWidth) fun hCapable => ?_
  have hInput : d.supportsHashInput = true := (Registry.codec_hashInput d).symm.trans hCapable
  refine ⟨hReflects hInput, fun v fields hFlat => ?_⟩
  exact ((Registry.encodes_slots hGrounded hInput).length_eq hFlat).trans
    (h.slots_length hGrounded hInput width hWidth)

mutual

/-- A measured type with a hash input flattens what it has a hash input for. -/
theorem Descriptor.Measured.reflects {d : Descriptor} :
    d.Measured r → (∀ name ∈ d.mentions, r.Grounded name) → d.supportsHashInput = true →
      (r.codec d).uncounted.Reflects
  | .leaf type, _, _ => type.reflects
  | .array h length, hGrounded, _ =>
      Part.reflects_replicated (h.reflects_part hGrounded (h.reflects hGrounded)) _ length
  | .tuple h, hGrounded, _ => by
      rw [Registry.codec, Descriptor.codec_tuple]
      refine Part.reflects_sequence (fun p hp => ?_) _
      obtain ⟨c, hc, rfl⟩ := List.mem_map.1 hp
      obtain ⟨d, hd, rfl⟩ := List.mem_map.1 hc
      have hMember : ∀ name ∈ d.mentions, r.Grounded name := fun name hName =>
        hGrounded name (Descriptor.mem_mentionsOfAll.2 ⟨d, hd, hName⟩)
      exact (h d hd).reflects_part hMember ((h d hd).reflects hMember)
  | .structural h, hGrounded, _ => h.reflects hGrounded
  | .composite h json, hGrounded, _ => by
      have hName := hGrounded _ (List.mem_singleton_self _)
      rw [Registry.codec_composite hName]
      refine Codec.reflects_composite _ json fun m hm => ?_
      obtain ⟨member, hMember, rfl⟩ := List.mem_map.1 hm
      have hInner : ∀ other ∈ member.2.mentions, r.Grounded other := fun other hOther =>
        hName.of_mentions ⟨member, hMember, hOther⟩
      exact (h member hMember).reflects_part hInner ((h member hMember).reflects hInner)
  | .unregistered name, _, _ => Codec.reflects_composite name true (List.forall_mem_nil _)
  | .incapable h, _, hCapable => by
      rw [h] at hCapable
      cases hCapable

/-- A measured shape flattens what it has a hash input for. -/
theorem Shape.Measured.reflects {s : Shape} :
    s.Measured r → (∀ name ∈ s.mentions, r.Grounded name) → (s.part r.names).Reflects
  | .leaf h _, hGrounded => h.reflects_part hGrounded (h.reflects hGrounded)
  | .array h, hGrounded => by
      rw [Shape.part_array]
      refine Part.reflects_sequence (fun p hp => ?_) _
      obtain ⟨s, hs, rfl⟩ := List.mem_map.1 hp
      exact (h s hs).reflects fun name hName =>
        hGrounded name (Shape.mem_mentionsOfItems.2 ⟨s, hs, hName⟩)
  | .object h, hGrounded => by
      rw [Shape.part_object]
      refine Part.reflects_object (fun p hp => ?_) _
      obtain ⟨m, hm, rfl⟩ := List.mem_map.1 hp
      exact (h m hm).reflects fun name hName =>
        hGrounded name (Shape.mem_mentionsOfMembers.2 ⟨m, hm, hName⟩)
  | .constant json, _ => Part.reflects_constant _ json

end

end

/-- The hash input of a value is a partition of its elements. Take a type that has a hash input
and does not contain itself.

A value that flattens has a hash input. It consists of the elements put into the slots of the type,
of which there is one for each element; so none is lost or doubled, and the whole ones as well as
the packed ones are in the order that they have in the value. Conversely, if the leaves of shapes
have the widths that their types have, a value that has a hash input flattens. -/
theorem Registry.input_partitions {r : Registry} {d : Descriptor}
    (hGrounded : ∀ name ∈ d.mentions, r.Grounded name) (hInput : d.supportsHashInput = true) :
    (∀ v fields, (r.codec d).toFields v = .ok fields →
      ∃ input, (r.codec d).toInput v = .ok input ∧
        fields.length = (r.slots d).length ∧ input = HashInput.place (r.slots d) fields ∧
        (input.fields ++ input.packed.map Prod.fst).Perm fields ∧
        input.fields.Sublist fields ∧ (input.packed.map Prod.fst).Sublist fields) ∧
    (d.Measured r → ∀ v input, (r.codec d).toInput v = .ok input →
      ∃ fields, (r.codec d).toFields v = .ok fields) := by
  have hEncodes := encodes_slots hGrounded hInput
  have hToInput (v : Value) : (r.codec d).toInput v = (r.codec d).input v := by
    unfold Codec.toInput
    rw [codec_hashInput, if_pos hInput]
  refine ⟨fun v fields hFields => ?_, fun hMeasured v input hOk => ?_⟩
  · have hFlat := Codec.flatten_of_toFields hFields
    have hLength := hEncodes.length_eq hFlat
    exact ⟨_, (hToInput v).trans (hEncodes.input_eq hFlat), hLength, rfl,
      InputSlot.wholes_smalls_perm hLength, InputSlot.wholes_sublist _ _,
      InputSlot.smalls_sublist _ _⟩
  · refine hMeasured.reflects_part hGrounded (hMeasured.reflects hGrounded) v input ?_
    show (r.codec d).toInputOrFields v = _
    unfold Codec.toInputOrFields
    rw [codec_hashInput, if_pos hInput]
    exact hOk

/-! ## Tickets and letters -/

/-- Tickets have a seat, whether they were used, and a note that is hashed as it flattens. -/
private def tickets : Registry :=
  ⟨[("Ticket", [("note", .plain .boolean), ("seat", .uint32), ("used", .boolean)])]⟩

/-- A ticket under a key, and a price. -/
private def sale : Descriptor :=
  .tuple [.structural (.object [("ticket", .leaf (.composite "Ticket" true) ⟨3, 0⟩)]), .field]

/-- A used ticket for seat 12, sold for 40. -/
private def soldTicket : Value := .array
  [.record none [("ticket", .record (some "Ticket")
    [("note", .ofBool true), ("seat", .ofElement 12), ("used", .ofBool true)])], .ofElement 40]

/-- Of a sold ticket, the note and the price are hashed whole, and the seat and the use are packed;
these are all elements, in order. -/
theorem input_partitions_sale :
    ∃ input fields, (tickets.codec sale).toInput soldTicket = .ok input ∧
      (tickets.codec sale).toFields soldTicket = .ok fields ∧
      input = ⟨[.constant 1, .constant 40], [(.constant 12, 32), (.constant 1, 1)]⟩ ∧
      (input.fields ++ input.packed.map Prod.fst).Perm fields ∧
      input.fields.Sublist fields ∧ (input.packed.map Prod.fst).Sublist fields := by
  have hGrounded : ∀ name ∈ sale.mentions, tickets.Grounded name := by
    intro name hName
    rw [List.mem_singleton.1 hName]
    refine Registry.Grounded.of_members fun m hm other hOther => ?_
    rcases hm with _ | ⟨_, _ | ⟨_, _ | ⟨_, hm⟩⟩⟩
    · cases hOther
    · cases hOther
    · cases hOther
    · cases hm
  have hTicket : (Descriptor.composite "Ticket" true).Measured tickets := by
    refine .composite (fun m hm => ?_) true
    rcases hm with _ | ⟨_, _ | ⟨_, _ | ⟨_, hm⟩⟩⟩
    · exact .incapable rfl
    · exact .leaf .uint32
    · exact .leaf .boolean
    · cases hm
  have hMeasured : sale.Measured tickets := by
    refine .tuple fun d hd => ?_
    rcases hd with _ | ⟨_, _ | ⟨_, hd⟩⟩
    · refine .structural (.object fun m hm => ?_)
      cases List.mem_singleton.1 hm
      exact .leaf hTicket rfl
    · exact .leaf .field
    · cases hd
  obtain ⟨hSplit, hBack⟩ := Registry.input_partitions hGrounded rfl
  obtain ⟨fields, hFields⟩ := hBack hMeasured soldTicket _ rfl
  obtain ⟨input, hInput, -, -, hPerm, hWhole, hPacked⟩ := hSplit soldTicket fields hFields
  exact ⟨input, fields, hInput, hFields, (Except.ok.inj hInput).symm, hPerm, hWhole, hPacked⟩

/-- Letters have a text. -/
private def writtenLetters : Registry := (Registry.empty.register "Letter" "text" (some .field)).1

/-- After shapes have been made of letters, letters are sealed. -/
private def sealedLetters : Registry :=
  (writtenLetters.register "Letter" "seal" (some .field)).1

/-- A letter under a key. The shape was made when letters had one element. -/
private def pile : Descriptor :=
  .structural (.object [("letter", .leaf (.composite "Letter" true) ⟨1, 0⟩)])

/-- A sealed letter in a pile that was made before there were seals has a hash input. It does not
flatten, because it has one element more than the pile declares. -/
theorem input_without_fields_pile :
    (do let s ← writtenLetters.leafShape (writtenLetters.composite "Letter")
        Descriptor.structural? (.object [("letter", s)]) none) = .ok pile ∧
      sealedLetters.Grounded "Letter" ∧ pile.supportsHashInput = true ∧
      (sealedLetters.codec pile).toInput (.record none [("letter", .record (some "Letter")
        [("seal", .ofElement 7), ("text", .ofElement 5)])]) =
          .ok ⟨[.constant 5, .constant 7], []⟩ ∧
      (sealedLetters.codec pile).toFields (.record none [("letter", .record (some "Letter")
        [("seal", .ofElement 7), ("text", .ofElement 5)])]) =
          .error (.elements pile.typeName 1 2) := by
  refine ⟨rfl, Registry.Grounded.of_members fun m hm other hOther => ?_, rfl, rfl, rfl⟩
  rcases hm with _ | ⟨_, _ | ⟨_, hm⟩⟩
  · cases hOther
  · cases hOther
  · cases hm

end TypedCircuit
