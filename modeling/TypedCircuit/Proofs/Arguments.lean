import TypedCircuit.Arguments
import TypedCircuit.Proofs.Codec.Counts
import TypedCircuit.Proofs.Codec.Fitting
import TypedCircuit.Proofs.Codec.RoundTrip

/-!
# Arguments survive their layout

Arguments are laid out first to last and read back last to first, each off the end of what is
left. What a type takes off the end is said by `EntryType.Takes`, and a whole reading is a list
of what was taken; turning that list around once gives the arguments in order, whatever their
numbers of elements are. From there on a layout and a reading are compared argument by argument.

Regular types refuse wrong counts only, so reading back fails for a count or not at all. A
lifted type ignores auxiliary data, which loses nothing if its values have none.

The sizes of the types have to fit on a machine. The only other number that is computed is the
total of the sizes, for the message about elements that are left over. It is no problem: these
elements were taken from a list that holds all of them.

## Main results

* `FlatArguments.toArguments_eq_ok`, `FlatArguments.ofArguments_eq_ok` — what is laid out and
  what is read back, argument by argument.
* `FlatArguments.arguments_survive` — arguments and their elements survive the layout.
-/

namespace TypedCircuit

/-- A computation fails because a count differs from the count of a type. -/
def RefusesCount {α : Type} (x : Except Error α) : Prop :=
  ∃ counted expected actual, x = .error (.arity counted expected actual)

/-! ## Taking elements off the end -/

/-- The elements that a type took for an argument, and the argument. -/
structure Taken where
  fields : List Signal
  value : Value

namespace EntryType

variable {t : EntryType Codec} {fields rest : List Signal} {aux : List Value}

/-- A type takes as many elements as it has, and makes an argument of them. -/
def Takes (t : EntryType Codec) (aux : List Value) (own : Taken) : Prop :=
  ∃ width, t.type.width () = .ok width ∧ own.fields.length = width.fields ∧
    t.rebuild own.fields aux = .ok own.value

variable {width : Width}

/-- As many elements as a type has come off the end. -/
theorem fromFields_append (hWidth : t.type.width () = .ok width) {own : List Signal}
    (hLength : own.length = width.fields) :
    t.fromFields (rest ++ own) aux = (t.rebuild own aux >>= fun v => pure (v, rest)) := by
  have hRest : (rest ++ own).length - width.fields = rest.length := by
    rw [List.length_append, hLength, Nat.add_sub_cancel]
  unfold fromFields
  rw [hWidth]
  show (if (rest ++ own).length < width.fields then _ else
    t.rebuild ((rest ++ own).drop ((rest ++ own).length - width.fields)) aux >>= fun v =>
      pure (v, (rest ++ own).take ((rest ++ own).length - width.fields))) = _
  rw [if_neg (by rw [List.length_append]; omega), hRest, List.drop_left, List.take_left]

/-- Too few elements are refused. -/
theorem fromFields_missing (hWidth : t.type.width () = .ok width)
    (hMissing : fields.length < width.fields) :
    t.fromFields fields aux = .error (.elements t.type.typeName width.fields fields.length) := by
  unfold fromFields
  rw [hWidth]
  exact if_pos hMissing

/-- Enough elements end in those of a type. -/
theorem exists_own (hEnough : ¬ fields.length < width.fields) :
    ∃ rest own, fields = rest ++ own ∧ own.length = width.fields := by
  refine ⟨fields.take (fields.length - width.fields), fields.drop (fields.length - width.fields),
    (List.take_append_drop _ _).symm, ?_⟩
  rw [List.length_drop]
  omega

theorem fromFields_eq_ok {v : Value} :
    t.fromFields fields aux = .ok (v, rest) ↔
      ∃ own, fields = rest ++ own ∧ t.Takes aux ⟨own, v⟩ := by
  constructor
  · intro h
    obtain ⟨width, hWidth, -⟩ := bind_eq_ok.1 h
    by_cases hMissing : fields.length < width.fields
    · cases (fromFields_missing hWidth hMissing).symm.trans h
    · obtain ⟨front, own, rfl, hLength⟩ := exists_own hMissing
      rw [fromFields_append hWidth hLength] at h
      obtain ⟨_, hBack, hEq⟩ := bind_eq_ok.1 h
      cases hEq
      exact ⟨own, rfl, width, hWidth, hLength, hBack⟩
  · rintro ⟨own, rfl, width, hWidth, hLength, hBack⟩
    rw [fromFields_append hWidth hLength]
    exact bind_eq_ok.2 ⟨v, hBack, rfl⟩

end EntryType

namespace FlatArguments

/-! ## What is read back -/

/-- A reading is a list of what was taken, the last argument first. -/
theorem readBack_eq_ok {items : List (EntryType Codec × List Value)} {fields rest : List Signal}
    {done args : List Value} :
    readBack fields done items = .ok (args, rest) ↔
      ∃ taken : List Taken, List.Forall₂ (fun p own => p.1.Takes p.2 own) items taken ∧
        fields = rest ++ taken.reverse.flatMap Taken.fields ∧
          args = taken.reverse.map Taken.value ++ done := by
  induction items generalizing fields done args with
  | nil =>
      constructor
      · intro h
        cases h
        exact ⟨[], .nil, (List.append_nil _).symm, rfl⟩
      · rintro ⟨taken, hTaken, rfl, rfl⟩
        cases hTaken
        rw [List.reverse_nil, List.flatMap_nil, List.append_nil]
        rfl
  | cons p items ih =>
      constructor
      · intro h
        obtain ⟨⟨v, front⟩, hStep, hRest⟩ := bind_eq_ok.1 h
        obtain ⟨own, rfl, hOwn⟩ := EntryType.fromFields_eq_ok.1 hStep
        obtain ⟨taken, hTaken, rfl, rfl⟩ := ih.1 hRest
        refine ⟨⟨own, v⟩ :: taken, .cons hOwn hTaken, ?_, ?_⟩
        · rw [List.reverse_cons, List.flatMap_append, List.flatMap_singleton, List.append_assoc]
        · rw [List.reverse_cons, List.map_append, List.append_assoc]
          rfl
      · rintro ⟨taken, hTaken, rfl, rfl⟩
        cases hTaken with
        | @cons _ own _ taken hOwn hTaken =>
            rw [List.reverse_cons, List.flatMap_append, List.flatMap_singleton, List.map_append,
              List.append_assoc]
            refine bind_eq_ok.2 ⟨(own.value, _), EntryType.fromFields_eq_ok.2
              ⟨own.fields, (List.append_assoc _ _ _).symm, hOwn⟩, ?_⟩
            exact ih.2 ⟨taken, hTaken, rfl, rfl⟩

variable {types : List (EntryType Codec)} {flat : FlatArguments} {args : List Value}

/-- Arguments are read back if there is auxiliary data for each, and the elements are what the
types take, first to last. -/
theorem toArguments_eq_ok :
    flat.toArguments types = .ok args ↔
      flat.aux.length = types.length ∧ ∃ taken : List Taken,
        List.Forall₂ (fun p own => p.1.Takes p.2 own) (types.zip flat.aux) taken ∧
          flat.fields = taken.flatMap Taken.fields ∧ args = taken.map Taken.value := by
  unfold toArguments
  constructor
  · intro h
    split at h
    · cases h
    · next hAux =>
        obtain ⟨⟨back, rest⟩, hBack, h⟩ := bind_eq_ok.1 h
        dsimp only at h
        split at h
        · next hEmpty =>
            cases h
            obtain rfl := List.isEmpty_iff.1 hEmpty
            obtain ⟨taken, hTaken, hFields, hArgs⟩ := readBack_eq_ok.1 hBack
            refine ⟨not_not.1 hAux, taken.reverse, ?_, hFields, ?_⟩
            · rw [← List.forall₂_reverse_iff, List.reverse_reverse]
              exact hTaken
            · rw [hArgs, List.append_nil]
        · obtain ⟨_, _, h⟩ := bind_eq_ok.1 h
          cases h
  · rintro ⟨hAux, taken, hTaken, hFields, rfl⟩
    rw [if_neg (not_not_intro hAux)]
    have hBack : readBack flat.fields [] (types.zip flat.aux).reverse =
        .ok (taken.map Taken.value, []) := by
      refine readBack_eq_ok.2 ⟨taken.reverse, List.forall₂_reverse_iff.2 hTaken, ?_, ?_⟩
      · rw [List.reverse_reverse]
        exact hFields
      · rw [List.reverse_reverse, List.append_nil]
    exact bind_eq_ok.2 ⟨_, hBack, rfl⟩

/-- Arguments are laid out if there is one for each type, and each flattens. -/
theorem ofArguments_eq_ok :
    ofArguments types args = .ok flat ↔
      types.length = args.length ∧ ∃ chunks : List (List Signal),
        List.Forall₂ (fun p chunk => p.1.type.toFields p.2 = .ok chunk) (types.zip args) chunks ∧
          flat = ⟨chunks.flatten, (types.zip args).map fun p => p.1.auxiliary p.2⟩ := by
  unfold ofArguments
  constructor
  · intro h
    split at h
    · cases h
    · next hLength =>
        obtain ⟨chunks, hChunks, hEq⟩ := bind_eq_ok.1 h
        cases hEq
        exact ⟨not_not.1 hLength, chunks, mapM_eq_ok.1 hChunks, rfl⟩
  · rintro ⟨hLength, chunks, hChunks, rfl⟩
    rw [if_neg (not_not_intro hLength)]
    exact bind_eq_ok.2 ⟨chunks, mapM_eq_ok.2 hChunks, rfl⟩

end FlatArguments

/-! ## Types of arguments -/

/-- A regular type without auxiliary data makes the same value of elements alone as of elements
and no auxiliary entries. -/
theorem Descriptor.Regular.ofFields_eq {r : Registry} {d : Descriptor} (h : d.Regular r) {n : Nat}
    (hWidth : (r.codec d).width () = .ok ⟨n, 0⟩) (fields : List Signal) :
    (r.codec d).ofFields fields = (r.codec d).rebuild fields [] := by
  induction d using Descriptor.ignoresSurplus.induct with
  | case1 name json =>
      cases h with
      | composite hNodup hMembers _ =>
          have hGrounded := Registry.Grounded.of_members fun m hm => (hMembers m hm).grounded
          rw [Registry.codec_composite hGrounded]
          rfl
  | case2 name => rfl
  | case3 inner ih =>
      cases h with
      | plain hInner =>
          have hBack : (r.codec inner).ofFieldsWithAux fields [] =
              (r.codec inner).rebuild fields [] := Codec.ofFieldsWithAux_eq hWidth rfl
          exact (ih hInner hWidth).trans hBack.symm
  | case4 type => cases type <;> rfl
  | case5 element length => rfl
  | case6 elements => rw [Registry.codec, Descriptor.codec_tuple]; rfl
  | case7 root => rfl
  | case8 claims produces => cases h

namespace EntryType

/-- The codec of the type of an argument. -/
def codec (r : Registry) : EntryType Descriptor → EntryType Codec
  | .direct d => .direct (r.codec d)
  | .lifted d => .lifted (r.codec d)

/-- The type of an argument is regular, and has no auxiliary data if it is lifted. -/
def Regular (r : Registry) : EntryType Descriptor → Prop
  | .direct d => d.Regular r
  | .lifted d => d.Regular r ∧ ∃ n, (r.codec d).width () = .ok ⟨n, 0⟩

/-- The auxiliary data that an argument takes along. -/
def carried {α β : Type} : EntryType α → List β → List β
  | .direct _, aux => aux
  | .lifted _, _ => []

/-- An argument comes back as its own value of its own elements and auxiliary data, in its
canonical form, which equals it if it was in that form. -/
def GivesBack (r : Registry) (t : EntryType Descriptor) (v w : Value) : Prop :=
  (∃ fields, (r.codec t.type).toFields v = .ok fields ∧
    (t.codec r).rebuild fields ((t.codec r).auxiliary v) = .ok w) ∧
  w = v.canonical r t.type ∧ (v.IsCanonical r t.type → (v == w) = true)

variable {r : Registry} {t : EntryType Descriptor}

theorem type_codec (t : EntryType Descriptor) : (t.codec r).type = r.codec t.type := by
  cases t <;> rfl

theorem auxiliary_codec (t : EntryType Descriptor) (v : Value) :
    (t.codec r).auxiliary v = t.carried ((r.codec t.type).auxiliary v) := by
  cases t <;> rfl

theorem Regular.type (h : t.Regular r) : t.type.Regular r := by
  cases t with
  | direct d => exact h
  | lifted d => exact h.1

/-- Both kinds of types make a value of elements and the auxiliary data they take along. -/
theorem Regular.rebuild_eq (h : t.Regular r) (fields : List Signal) (aux : List Value) :
    (t.codec r).rebuild fields aux =
      (r.codec t.type).ofFieldsWithAux fields (t.carried aux) := by
  cases t with
  | direct d => rfl
  | lifted d =>
      obtain ⟨hType, n, hWidth⟩ := h
      exact (hType.ofFields_eq hWidth fields).trans (Codec.ofFieldsWithAux_eq hWidth rfl).symm

/-- No auxiliary entry of a value is left behind. -/
theorem Regular.carried_auxiliary (h : t.Regular r) {v : Value} {fields : List Signal}
    (hFlat : (r.codec t.type).toFields v = .ok fields) :
    t.carried ((r.codec t.type).auxiliary v) = (r.codec t.type).auxiliary v := by
  cases t with
  | direct d => rfl
  | lifted d =>
      obtain ⟨hType, n, hNone⟩ := h
      obtain ⟨width, rules, hLaw⟩ := hType.lawful
      cases hLaw.width_eq.symm.trans hNone
      exact (List.length_eq_zero_iff.1 (hLaw.aux_length hFlat)).symm

/-- What an argument was laid out as is taken for it again. -/
theorem Regular.takes (h : t.Regular r) {v : Value} {fields : List Signal}
    (hFlat : (r.codec t.type).toFields v = .ok fields) :
    (t.codec r).Takes ((t.codec r).auxiliary v) ⟨fields, v.canonical r t.type⟩ := by
  obtain ⟨width, rules, hLaw⟩ := h.type.lawful
  refine ⟨width, ?_, hLaw.fields_length hFlat, ?_⟩
  · rw [type_codec]
    exact hLaw.width_eq
  · rw [h.rebuild_eq, auxiliary_codec, h.carried_auxiliary hFlat, h.carried_auxiliary hFlat]
    exact hLaw.rebuild_flatten hFlat

theorem Regular.givesBack (h : t.Regular r) {v : Value} {fields : List Signal}
    (hFlat : (r.codec t.type).toFields v = .ok fields) :
    t.GivesBack r v (v.canonical r t.type) := by
  obtain ⟨_, _, _, hBack⟩ := h.takes hFlat
  exact ⟨⟨fields, hFlat, hBack⟩, rfl, fun hv => hv.beq_canonical⟩

/-- What was taken for an argument is what the argument is laid out as. -/
theorem Regular.flattens (h : t.Regular r) {aux : List Value} {own : Taken}
    (hTakes : (t.codec r).Takes aux own)
    (hHost : ∀ a ∈ aux, (∃ identity, a = .opaqueValue identity) ∨ a = .null) :
    (r.codec t.type).toFields own.value = .ok own.fields ∧
      (t.codec r).auxiliary own.value = t.carried aux := by
  obtain ⟨width, hWidth, hLength, hBack⟩ := hTakes
  rw [type_codec] at hWidth
  rw [h.rebuild_eq] at hBack
  obtain ⟨width', hTotal⟩ := h.type.total
  obtain rfl := Except.ok.inj (hWidth.symm.trans hTotal.width_eq)
  have hAux : (t.carried aux).length = width.aux := by
    by_contra hNot
    cases hBack.symm.trans (Codec.ofFieldsWithAux_refused hWidth hNot)
  have hCarried : ∀ a ∈ t.carried aux, a.HostData := by
    intro a ha
    cases t with
    | direct d => exact Value.hostData_iff.2 (hHost a ha)
    | lifted d => cases ha
  obtain ⟨v, hSame, hEntries, hFlat⟩ := hTotal.rebuild_ok hLength hAux
  obtain rfl := Except.ok.inj (hBack.symm.trans hSame)
  rw [Codec.expectAllOpaque_eq_ok hCarried] at hFlat
  refine ⟨hFlat, ?_⟩
  rw [auxiliary_codec, h.carried_auxiliary hFlat]
  exact hEntries

/-- An argument is taken off the end, or a count is refused. -/
theorem Regular.fromFields_total (h : t.Regular r) (fields : List Signal) (aux : List Value) :
    (∃ v rest, (t.codec r).fromFields fields aux = .ok (v, rest)) ∨
      RefusesCount ((t.codec r).fromFields fields aux) := by
  obtain ⟨width, hTotal⟩ := h.type.total
  have hWidth : (t.codec r).type.width () = .ok width := by
    rw [type_codec]
    exact hTotal.width_eq
  by_cases hMissing : fields.length < width.fields
  · exact .inr ⟨_, _, _, fromFields_missing hWidth hMissing⟩
  · obtain ⟨rest, own, rfl, hLength⟩ := exists_own hMissing
    rw [fromFields_append hWidth hLength, h.rebuild_eq]
    by_cases hAux : (t.carried aux).length = width.aux
    · obtain ⟨v, hBack, -⟩ := hTotal.rebuild_ok hLength hAux
      rw [show (r.codec t.type).ofFieldsWithAux own (t.carried aux) = .ok v from hBack]
      exact .inl ⟨v, rest, rfl⟩
    · rw [Codec.ofFieldsWithAux_refused hTotal.width_eq hAux]
      exact .inr ⟨_, _, _, rfl⟩

end EntryType

/-! ## Arguments of regular types -/

namespace FlatArguments

variable {r : Registry} {types : List (EntryType Descriptor)}

/-- The codecs of the types of arguments. -/
abbrev codecs (r : Registry) (types : List (EntryType Descriptor)) : List (EntryType Codec) :=
  types.map (·.codec r)

/-- What arguments were laid out as is taken for them again, and they come back. -/
theorem exists_taken (h : ∀ t ∈ types, t.Regular r) {args : List Value}
    (hLength : types.length = args.length) {chunks : List (List Signal)}
    (hChunks : List.Forall₂ (fun p chunk => p.1.type.toFields p.2 = .ok chunk)
      ((codecs r types).zip args) chunks) :
    ∃ taken : List Taken,
      List.Forall₂ (fun p own => p.1.Takes p.2 own)
        ((codecs r types).zip (((codecs r types).zip args).map fun p => p.1.auxiliary p.2))
        taken ∧
      chunks.flatten = taken.flatMap Taken.fields ∧
      List.Forall₂ (fun p w => p.1.GivesBack r p.2 w) (types.zip args)
        (taken.map Taken.value) := by
  induction types generalizing args chunks with
  | nil =>
      cases hChunks
      exact ⟨[], .nil, rfl, .nil⟩
  | cons t types ih =>
      cases args with
      | nil => cases hLength
      | cons v args =>
          obtain ⟨hType, hTypes⟩ := List.forall_mem_cons.1 h
          cases hChunks with
          | @cons _ chunk _ chunks hChunk hChunks =>
              rw [EntryType.type_codec] at hChunk
              obtain ⟨taken, hTaken, hFields, hBack⟩ :=
                ih hTypes (Nat.succ.inj hLength) hChunks
              refine ⟨⟨chunk, v.canonical r t.type⟩ :: taken, .cons (hType.takes hChunk) hTaken,
                ?_, .cons (hType.givesBack hChunk) hBack⟩
              rw [List.flatten_cons, List.flatMap_cons, hFields]

/-- What was taken for arguments is what they are laid out as. -/
theorem layOut_taken (h : ∀ t ∈ types, t.Regular r) {aux : List (List Value)}
    (hLength : aux.length = types.length) {taken : List Taken}
    (hTaken : List.Forall₂ (fun p own => p.1.Takes p.2 own) ((codecs r types).zip aux) taken)
    (hHost : ∀ entries ∈ aux, ∀ a ∈ entries, (∃ identity, a = .opaqueValue identity) ∨ a = .null) :
    taken.length = types.length ∧
      List.Forall₂ (fun p chunk => p.1.type.toFields p.2 = .ok chunk)
        ((codecs r types).zip (taken.map Taken.value)) (taken.map Taken.fields) ∧
      (((codecs r types).zip (taken.map Taken.value)).map fun p => p.1.auxiliary p.2) =
        types.zipWith EntryType.carried aux := by
  induction types generalizing aux taken with
  | nil =>
      cases hTaken
      exact ⟨rfl, .nil, rfl⟩
  | cons t types ih =>
      cases aux with
      | nil => cases hLength
      | cons entries aux =>
          obtain ⟨hType, hTypes⟩ := List.forall_mem_cons.1 h
          obtain ⟨hEntries, hAll⟩ := List.forall_mem_cons.1 hHost
          cases hTaken with
          | @cons _ own _ taken hOwn hTaken =>
              obtain ⟨hFlat, hSame⟩ := hType.flattens hOwn hEntries
              obtain ⟨hCount, hFields, hAux⟩ := ih hTypes (Nat.succ.inj hLength) hTaken hAll
              refine ⟨congrArg Nat.succ hCount, .cons ?_ hFields, ?_⟩
              · rw [EntryType.type_codec]
                exact hFlat
              · exact congrArg₂ List.cons hSame hAux

/-- As many elements are taken as the types have. -/
theorem length_taken {widths : List Width}
    (hWidths : List.Forall₂ (fun t width => (r.codec t.type).width () = .ok width) types widths)
    {aux : List (List Value)} (hLength : aux.length = types.length) {taken : List Taken}
    (hTaken : List.Forall₂ (fun p own => p.1.Takes p.2 own) ((codecs r types).zip aux) taken) :
    (taken.flatMap Taken.fields).length = (Width.sum widths).fields := by
  induction hWidths generalizing aux taken with
  | nil => cases hTaken; rfl
  | @cons t width types widths hWidth _ ih =>
      cases aux with
      | nil => cases hLength
      | cons entries aux =>
          cases hTaken with
          | @cons _ own _ taken hOwn hTaken =>
              obtain ⟨width', hWidth', hOwnLength, -⟩ := hOwn
              rw [EntryType.type_codec] at hWidth'
              obtain rfl := Except.ok.inj (hWidth.symm.trans hWidth')
              rw [List.flatMap_cons, List.length_append, hOwnLength,
                ih (Nat.succ.inj hLength) hTaken, Width.sum_cons, Width.add_fields]

/-- What the types take and what is left over are all elements. -/
theorem length_readBack {widths : List Width}
    (hWidths : List.Forall₂ (fun t width => (r.codec t.type).width () = .ok width) types widths)
    {flat : FlatArguments} (hLength : flat.aux.length = types.length) {args : List Value}
    {rest : List Signal}
    (h : readBack flat.fields [] ((codecs r types).zip flat.aux).reverse = .ok (args, rest)) :
    (Width.sum widths).fields + rest.length = flat.fields.length := by
  obtain ⟨taken, hTaken, hFields, -⟩ := readBack_eq_ok.1 h
  have hInOrder := List.forall₂_reverse_iff.2 hTaken
  rw [List.reverse_reverse] at hInOrder
  rw [hFields, List.length_append, length_taken hWidths hLength hInOrder, Nat.add_comm]

/-- Arguments are read back, or a count is refused. -/
theorem readBack_total {items : List (EntryType Descriptor × List Value)}
    (h : ∀ p ∈ items, p.1.Regular r) (fields : List Signal) (done : List Value) :
    (∃ back, readBack fields done (items.map (Prod.map (·.codec r) id)) = .ok back) ∨
      RefusesCount (readBack fields done (items.map (Prod.map (·.codec r) id))) := by
  induction items generalizing fields done with
  | nil => exact .inl ⟨_, rfl⟩
  | cons p items ih =>
      obtain ⟨hType, hTypes⟩ := List.forall_mem_cons.1 h
      have hCons : readBack fields done ((p :: items).map (Prod.map (·.codec r) id)) =
          ((p.1.codec r).fromFields fields p.2 >>= fun own =>
            readBack own.2 (own.1 :: done) (items.map (Prod.map (·.codec r) id))) := rfl
      rw [hCons]
      rcases hType.fromFields_total fields p.2 with ⟨v, rest, hOwn⟩ | ⟨_, _, _, hRefused⟩
      · rw [hOwn]
        exact ih hTypes rest (v :: done)
      · rw [hRefused]
        exact .inr ⟨_, _, _, rfl⟩

/-- Arguments are read back, or a count is refused, because the types have widths. -/
theorem toArguments_total {widths : List Width} (h : ∀ t ∈ types, t.Regular r)
    (hWidths : List.Forall₂ (fun t width => (r.codec t.type).width () = .ok width) types widths)
    (flat : FlatArguments) :
    (∃ args, flat.toArguments (codecs r types) = .ok args) ∨
      RefusesCount (flat.toArguments (codecs r types)) := by
  unfold toArguments
  by_cases hAux : flat.aux.length = (codecs r types).length
  · rw [if_neg (not_not_intro hAux)]
    have hItems : ((codecs r types).zip flat.aux).reverse =
        (types.zip flat.aux).reverse.map (Prod.map (·.codec r) id) := by
      rw [List.zip_map_left, List.map_reverse]
    have hRegular : ∀ p ∈ (types.zip flat.aux).reverse, p.1.Regular r := fun p hp =>
      h p.1 (List.of_mem_zip (List.mem_reverse.1 hp)).1
    have hCounted : (codecs r types).mapM (fun t => t.type.width ()) = .ok widths := by
      refine mapM_eq_ok.2 (List.forall₂_map_left_iff.2 (hWidths.imp fun t width hWidth => ?_))
      rw [EntryType.type_codec]
      exact hWidth
    rw [hItems]
    rcases readBack_total hRegular flat.fields [] with ⟨⟨args, rest⟩, hBack⟩ | ⟨_, _, _, hBack⟩
    · rw [hBack, hCounted]
      cases rest with
      | nil => exact .inl ⟨args, rfl⟩
      | cons s rest => exact .inr ⟨_, _, _, rfl⟩
    · rw [hBack]
      exact .inr ⟨_, _, _, rfl⟩
  · rw [if_pos hAux]
    exact .inr ⟨_, _, _, rfl⟩

/--
Arguments of regular types that are laid out are read back, each as its own value of its own
elements and auxiliary data. What is read back has as many elements as the types together; the
arguments are laid out as the same elements, with the auxiliary data that their types take
along, if every auxiliary entry is a host value or a null. Another number of elements and
another number of lists of auxiliary data are refused for a count.

The sizes of each type have to fit on a machine, which does the same then. When elements are left
over, the total of the sizes is not greater than the number of elements that were given.
-/
theorem arguments_survive {m : Machine} (h : ∀ t ∈ types, t.Regular r)
    (hFits : ∀ t ∈ types, r.Fits m t.type) :
    (∀ t ∈ types, r.machineCodec m t.type = r.codec t.type) ∧
    ∃ widths, (types.mapM fun t => (r.codec t.type).width ()) = .ok widths ∧
      (∀ args flat, ofArguments (codecs r types) args = .ok flat →
        ∃ back, flat.toArguments (codecs r types) = .ok back ∧ back.length = args.length ∧
          List.Forall₂ (fun p w => p.1.GivesBack r p.2 w) (types.zip args) back) ∧
      (∀ (flat : FlatArguments) (args : List Value),
        flat.toArguments (codecs r types) = .ok args →
          flat.fields.length = (Width.sum widths).fields ∧
          ((∀ entries ∈ flat.aux, ∀ a ∈ entries, (∃ identity, a = .opaqueValue identity) ∨
              a = .null) →
            ofArguments (codecs r types) args =
              .ok ⟨flat.fields, types.zipWith EntryType.carried flat.aux⟩)) ∧
      (∀ (flat : FlatArguments) (args : List Value) (rest : List Signal),
        flat.aux.length = types.length →
          readBack flat.fields [] ((codecs r types).zip flat.aux).reverse = .ok (args, rest) →
            (Width.sum widths).fields + rest.length = flat.fields.length) ∧
      ∀ flat : FlatArguments,
        flat.fields.length ≠ (Width.sum widths).fields ∨ flat.aux.length ≠ types.length →
          RefusesCount (flat.toArguments (codecs r types)) := by
  obtain ⟨widths, hWidths⟩ := exists_forall₂ (R := fun t width =>
    (r.codec t.type).width () = .ok width) fun t ht =>
      (h t ht).type.total.imp fun _ hTotal => hTotal.width_eq
  have hCount : (codecs r types).length = types.length := List.length_map _
  have hSum : ∀ (flat : FlatArguments) (args : List Value),
      flat.toArguments (codecs r types) = .ok args →
        flat.fields.length = (Width.sum widths).fields ∧ flat.aux.length = types.length := by
    intro flat args hBack
    obtain ⟨hAux, taken, hTaken, hFields, -⟩ := toArguments_eq_ok.1 hBack
    rw [hFields]
    exact ⟨length_taken hWidths (hAux.trans hCount) hTaken, hAux.trans hCount⟩
  refine ⟨fun t ht => Registry.machineCodec_eq (hFits t ht), widths, mapM_eq_ok.2 hWidths, ?_, ?_,
    fun flat args rest hAux hBack => length_readBack hWidths hAux hBack, ?_⟩
  · intro args flat hFlat
    obtain ⟨hLength, chunks, hChunks, rfl⟩ := ofArguments_eq_ok.1 hFlat
    obtain ⟨taken, hTaken, hFields, hBack⟩ :=
      exists_taken h (hCount.symm.trans hLength) hChunks
    refine ⟨taken.map Taken.value, toArguments_eq_ok.2 ⟨?_, taken, hTaken, hFields, rfl⟩, ?_,
      hBack⟩
    · rw [List.length_map, List.length_zip, ← hLength, Nat.min_self]
    · rw [← hBack.length_eq, List.length_zip, ← hLength, hCount, Nat.min_self]
  · intro flat args hBack
    refine ⟨(hSum flat args hBack).1, fun hHost => ?_⟩
    obtain ⟨hAux, taken, hTaken, hFields, rfl⟩ := toArguments_eq_ok.1 hBack
    obtain ⟨hTakenLength, hChunks, hCarried⟩ := layOut_taken h (hAux.trans hCount) hTaken hHost
    refine ofArguments_eq_ok.2 ⟨?_, taken.map Taken.fields, hChunks, ?_⟩
    · rw [hCount, List.length_map, hTakenLength]
    · rw [hCarried, hFields]
      rfl
  · intro flat hOther
    refine (toArguments_total h hWidths flat).resolve_left ?_
    rintro ⟨args, hBack⟩
    obtain ⟨hFields, hAux⟩ := hSum flat args hBack
    exact hOther.elim (fun hNot => hNot hFields) fun hNot => hNot hAux

/-! ## A payment -/

/-- A registry with points. -/
private def grid : Registry := ⟨[("Point", [("x", .field), ("y", .field)])]⟩

/-- A point, nothing and a receipt, of which only the payer is host data. -/
private def payment : List (EntryType Descriptor) :=
  [.lifted (.composite "Point" true), .lifted (.tuple []),
    .direct (.structural (.object [("amount", .leaf .uint32 ⟨1, 0⟩),
      ("payer", .leaf .opaqueHost ⟨0, 1⟩)]))]

private theorem regular_payment : ∀ t ∈ payment, t.Regular grid := by
  intro t ht
  rcases ht with _ | ⟨_, _ | ⟨_, _ | ⟨_, ht⟩⟩⟩
  · refine ⟨.composite (by decide) (fun m hm => ?_) true, 2, rfl⟩
    rcases hm with _ | ⟨_, _ | ⟨_, hm⟩⟩
    · exact .leaf .field
    · exact .leaf .field
    · cases hm
  · exact ⟨.tuple nofun, 0, rfl⟩
  · refine .structural (.object (by decide) fun m hm => ?_)
    rcases hm with _ | ⟨_, _ | ⟨_, hm⟩⟩
    · exact .leaf (.leaf .uint32) rfl
    · exact .leaf (.leaf .opaqueHost) rfl
    · cases hm
  · cases ht

/-- A payment comes back from its layout, and one without its last element is refused. -/
theorem arguments_survive_payment :
    (∃ back, (FlatArguments.mk [.constant 1, .constant 2, .constant 30]
        [[], [], [.opaqueValue "payer"]]).toArguments (codecs grid payment) = .ok back ∧
      back.length = 3) ∧
    RefusesCount ((FlatArguments.mk [.constant 1, .constant 2]
      [[], [], [.opaqueValue "payer"]]).toArguments (codecs grid payment)) := by
  have hFits : ∀ t ∈ payment,
      grid.Fits (.checking 2 (by decide) (.recursiveType "")) t.type := by
    intro t ht
    rcases ht with _ | ⟨_, _ | ⟨_, _ | ⟨_, ht⟩⟩⟩
    · exact ⟨_, rfl⟩
    · exact ⟨_, rfl⟩
    · exact ⟨_, rfl⟩
    · cases ht
  obtain ⟨-, widths, hWidths, hBack, -, -, hRefused⟩ := arguments_survive regular_payment hFits
  have hLaidOut : ofArguments (codecs grid payment)
      [.record none [("x", .ofElement 1), ("y", .ofElement 2)], .array [],
        .record none [("amount", .ofElement 30), ("payer", .opaqueValue "payer")]] =
      .ok ⟨[.constant 1, .constant 2, .constant 30], [[], [], [.opaqueValue "payer"]]⟩ := rfl
  obtain ⟨back, hArguments, hLength, -⟩ := hBack _ _ hLaidOut
  cases hWidths
  exact ⟨⟨back, hArguments, hLength⟩, hRefused _ (.inl (by decide))⟩

end FlatArguments

end TypedCircuit
