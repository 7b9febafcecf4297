import TypedCircuit.Proofs.Codec.Congruence
import TypedCircuit.Proofs.Documents.Restoring

/-!
# Agreement up to a height

Two parts agree up to a height if they have the same name and the same width and do the same to
every value and every document that is not higher. What is inside of a value is lower than the
value, so larger positions agree if those inside of them do, and what has members agrees even one
level higher.

Nothing is said of rebuilding: a share does not get lower on its way to the members of a name.

## Main results

* `Part.congruence_agrees` — agreement is kept by every way to assemble codecs.
* `Codec.agrees_composite` — composites agree one level higher than their members.
-/

namespace TypedCircuit

/-! ## Walks over related lists -/

section

variable {α β γ : Type} {xs : List α} {ys : List β}

theorem mapM_congr₂ {m : Type → Type} [Monad m] [LawfulMonad m] {F : α → m γ} {G : β → m γ}
    (h : List.Forall₂ (fun x y => F x = G y) xs ys) : xs.mapM F = ys.mapM G := by
  induction h with
  | nil => rfl
  | cons hHead _ ih => rw [List.mapM_cons, List.mapM_cons, hHead, ih]

theorem forM_congr₂ {F : α → Circuit Unit} {G : β → Circuit Unit}
    (h : List.Forall₂ (fun x y => F x = G y) xs ys) : xs.forM F = ys.forM G := by
  induction h with
  | nil => rfl
  | @cons x y xs ys hHead _ ih =>
      show (F x >>= fun _ => xs.forM F) = (G y >>= fun _ => ys.forM G)
      rw [hHead, ih]

theorem flatMap_congr₂ {F : α → List γ} {G : β → List γ}
    (h : List.Forall₂ (fun x y => F x = G y) xs ys) : xs.flatMap F = ys.flatMap G := by
  induction h with
  | nil => rfl
  | cons hHead _ ih => rw [List.flatMap_cons, List.flatMap_cons, hHead, ih]

/-- Related lists are related element by element beside a third one. -/
theorem forall₂_zip {R : α → β → Prop} (h : List.Forall₂ R xs ys) (zs : List γ) :
    List.Forall₂ (fun a b => R a.1 b.1 ∧ a.2 = b.2 ∧ a.2 ∈ zs) (xs.zip zs) (ys.zip zs) := by
  induction h generalizing zs with
  | nil => exact .nil
  | cons hHead _ ih =>
      cases zs with
      | nil => exact .nil
      | cons z zs =>
          refine .cons ⟨hHead, rfl, List.mem_cons_self⟩ ((ih zs).imp ?_)
          rintro a b ⟨hRel, hSame, hMem⟩
          exact ⟨hRel, hSame, List.mem_cons_of_mem z hMem⟩

/-- Related entries have the same names, one by one. -/
theorem keys_eq_of_forall₂ {R : α → β → Prop} {xs : List (String × α)} {ys : List (String × β)}
    (h : List.Forall₂ (fun a b => a.1 = b.1 ∧ R a.2 b.2) xs ys) :
    xs.map Prod.fst = ys.map Prod.fst :=
  Entries.names_eq_of_forall₂ (h.imp fun _ _ hm => hm.1)

theorem forall₂_of_entries {R : α → β → Prop} {xs : List (String × α)} {ys : List (String × β)}
    (h : List.Forall₂ (fun a b => a.1 = b.1 ∧ R a.2 b.2) xs ys) :
    List.Forall₂ R (xs.map Prod.snd) (ys.map Prod.snd) := by
  rw [List.forall₂_map_left_iff, List.forall₂_map_right_iff]
  exact h.imp fun _ _ hm => hm.2

end

/-! ## Parts -/

namespace Part

/-- Two parts do the same to what is not higher than a height. -/
structure Agrees (n : Nat) (p q : Part) : Prop where
  typeName_eq : p.typeName = q.typeName
  width_eq : p.width = q.width
  flatten_eq {v : Value} (h : v.height ≤ n) : p.flatten v = q.flatten v
  auxiliary_eq {v : Value} (h : v.height ≤ n) : p.auxiliary v = q.auxiliary v
  check_eq {v : Value} (h : v.height ≤ n) : p.check v = q.check v
  input_eq {v : Value} (h : v.height ≤ n) : p.input v = q.input v
  encode_eq {v : Value} (h : v.height ≤ n) : p.encode v = q.encode v
  decode_eq {json : Json} (h : json.height ≤ n) : p.decode json = q.decode json

variable {n k : Nat} {p q : Part} {parts parts' : List Part}
  {members members' : List (String × Part)}

theorem Agrees.refl (n : Nat) (p : Part) : p.Agrees n p :=
  ⟨rfl, rfl, fun _ => rfl, fun _ => rfl, fun _ => rfl, fun _ => rfl, fun _ => rfl, fun _ => rfl⟩

theorem Agrees.symm (h : Agrees n p q) : Agrees n q p where
  typeName_eq := h.typeName_eq.symm
  width_eq := h.width_eq.symm
  flatten_eq hv := (h.flatten_eq hv).symm
  auxiliary_eq hv := (h.auxiliary_eq hv).symm
  check_eq hv := (h.check_eq hv).symm
  input_eq hv := (h.input_eq hv).symm
  encode_eq hv := (h.encode_eq hv).symm
  decode_eq hJson := (h.decode_eq hJson).symm

theorem Agrees.trans {o : Part} (h : Agrees n p q) (h' : Agrees n q o) : Agrees n p o where
  typeName_eq := h.typeName_eq.trans h'.typeName_eq
  width_eq := h.width_eq.trans h'.width_eq
  flatten_eq hv := (h.flatten_eq hv).trans (h'.flatten_eq hv)
  auxiliary_eq hv := (h.auxiliary_eq hv).trans (h'.auxiliary_eq hv)
  check_eq hv := (h.check_eq hv).trans (h'.check_eq hv)
  input_eq hv := (h.input_eq hv).trans (h'.input_eq hv)
  encode_eq hv := (h.encode_eq hv).trans (h'.encode_eq hv)
  decode_eq hJson := (h.decode_eq hJson).trans (h'.decode_eq hJson)

theorem Agrees.mono (h : Agrees n p q) (hLe : k ≤ n) : Agrees k p q where
  typeName_eq := h.typeName_eq
  width_eq := h.width_eq
  flatten_eq hv := h.flatten_eq (Nat.le_trans hv hLe)
  auxiliary_eq hv := h.auxiliary_eq (Nat.le_trans hv hLe)
  check_eq hv := h.check_eq (Nat.le_trans hv hLe)
  input_eq hv := h.input_eq (Nat.le_trans hv hLe)
  encode_eq hv := h.encode_eq (Nat.le_trans hv hLe)
  decode_eq hJson := h.decode_eq (Nat.le_trans hJson hLe)

/-- A part still agrees with another way to count and to flatten that does the same. What it
rebuilds has no part in agreement. -/
theorem Agrees.replace (h : Agrees n p q) {width : Unit → Except Error Width}
    {flatten : Value → Except Error (List Signal)} (hWidth : width () = q.width ())
    (hFlatten : ∀ {v}, v.height ≤ n → flatten v = q.flatten v)
    (rebuild : List Signal → List Value → Except Error Value) :
    Agrees n { p with width, flatten, rebuild } q :=
  ⟨h.typeName_eq, funext fun _ => hWidth, hFlatten, h.auxiliary_eq, h.check_eq, h.input_eq,
    h.encode_eq, h.decode_eq⟩

/-! ### Sequences -/

section Sequences

variable (h : List.Forall₂ (Agrees n) parts parts')
include h

theorem widths_congr₂ : widths parts = widths parts' :=
  mapM_congr₂ (h.imp fun _ _ hParts => congrFun hParts.width_eq ())

section Items

variable {items : List Value} (hItems : ∀ v ∈ items, v.height ≤ n)
include hItems

private theorem forall₂_items {γ : Type} (F : Part → Value → γ)
    (hF : ∀ {p q v}, Agrees n p q → v.height ≤ n → F p v = F q v) :
    List.Forall₂ (fun a b => F a.1 a.2 = F b.1 b.2) (parts.zip items) (parts'.zip items) := by
  refine (forall₂_zip h items).imp ?_
  rintro ⟨p, v⟩ ⟨q, w⟩ ⟨hAgrees, hSame, hMem⟩
  cases hSame
  exact hF hAgrees (hItems v hMem)

theorem flattenAll_congr₂ : flattenAll parts items = flattenAll parts' items :=
  congrArg (· >>= fun chunks : List (List Signal) => pure chunks.flatten)
    (mapM_congr₂ (forall₂_items h hItems Part.flatten fun hParts => hParts.flatten_eq))

theorem auxiliaryAll_congr₂ : auxiliaryAll parts items = auxiliaryAll parts' items :=
  flatMap_congr₂ (forall₂_items h hItems Part.auxiliary fun hParts => hParts.auxiliary_eq)

theorem checkAll_congr₂ : checkAll parts items = checkAll parts' items :=
  forM_congr₂ (forall₂_items h hItems Part.check fun hParts => hParts.check_eq)

theorem inputAll_congr₂ : inputAll parts items = inputAll parts' items :=
  congrArg (· >>= fun inputs => pure (HashInput.concat inputs))
    (mapM_congr₂ (forall₂_items h hItems Part.input fun hParts => hParts.input_eq))

theorem encodeAll_congr₂ : encodeAll parts items = encodeAll parts' items :=
  mapM_congr₂ (forall₂_items h hItems Part.encode fun hParts => hParts.encode_eq)

end Items

theorem decodeAll_congr₂ {documents : List Json}
    (hDocuments : ∀ json ∈ documents, json.height ≤ n) :
    decodeAll parts documents = decodeAll parts' documents := by
  unfold decodeAll
  refine congrArg OptionT.run (mapM_congr₂ ((forall₂_zip h documents).imp ?_))
  rintro ⟨p, json⟩ ⟨q, other⟩ ⟨hAgrees, hSame, hMem⟩
  cases hSame
  exact congrArg OptionT.mk (hAgrees.decode_eq (hDocuments json hMem))

end Sequences

private theorem agrees_expectItems {γ : Type} {typeName : String} {count : Nat} {v : Value}
    (hHeight : v.height ≤ n + 1) {F G : List Value → Except Error γ}
    (h : ∀ items, items.length = count → (∀ item ∈ items, item.height ≤ n) → F items = G items) :
    (expectItems typeName count v >>= F) = expectItems typeName count v >>= G := by
  cases hItems : expectItems typeName count v with
  | error e => rfl
  | ok items =>
      obtain ⟨rfl, hLength⟩ := expectItems_eq_ok.1 hItems
      exact h items hLength fun item hItem =>
        Nat.le_trans (Value.height_le_of_mem hItem) (Nat.le_of_succ_le_succ hHeight)

theorem agrees_sequence (h : List.Forall₂ (Agrees n) parts parts') (typeName : String) :
    Agrees (n + 1) (sequence typeName parts) (sequence typeName parts') where
  typeName_eq := rfl
  width_eq := by
    show (fun _ => (widths parts).map Width.sum) = fun _ => (widths parts').map Width.sum
    rw [widths_congr₂ h]
  flatten_eq {v} hv := by
    show (expectItems typeName parts.length v >>= _) = (expectItems typeName parts'.length v >>= _)
    rw [h.length_eq]
    exact agrees_expectItems hv fun items _ hItems => flattenAll_congr₂ h hItems
  auxiliary_eq {v} hv := by
    cases v with
    | array items =>
        exact auxiliaryAll_congr₂ h fun item hItem =>
          Nat.le_trans (Value.height_le_of_mem hItem) (Nat.le_of_succ_le_succ hv)
    | signal | bit | record | primitive | opaqueValue => rfl
  check_eq {v} hv := by
    show (liftM (expectItems typeName parts.length v) >>= checkAll parts) =
      (liftM (expectItems typeName parts'.length v) >>= checkAll parts')
    rw [h.length_eq]
    cases hItems : expectItems typeName parts'.length v with
    | error e => rfl
    | ok items =>
        obtain ⟨rfl, -⟩ := expectItems_eq_ok.1 hItems
        exact checkAll_congr₂ h fun item hItem =>
          Nat.le_trans (Value.height_le_of_mem hItem) (Nat.le_of_succ_le_succ hv)
  input_eq {v} hv := by
    show (expectItems typeName parts.length v >>= _) = (expectItems typeName parts'.length v >>= _)
    rw [h.length_eq]
    exact agrees_expectItems hv fun items _ hItems => inputAll_congr₂ h hItems
  encode_eq {v} hv := by
    show (expectItems typeName parts.length v >>= _) = (expectItems typeName parts'.length v >>= _)
    rw [h.length_eq]
    refine agrees_expectItems hv fun items _ hItems => ?_
    rw [encodeAll_congr₂ h hItems]
  decode_eq {json} hJson := by
    show decodeItems parts json = decodeItems parts' json
    unfold decodeItems
    rw [h.length_eq]
    cases json with
    | array documents =>
        have hDocuments : decodeAll parts documents = decodeAll parts' documents :=
          decodeAll_congr₂ h fun document hMem =>
            Nat.le_trans (Json.height_le_of_mem hMem) (Nat.le_of_succ_le_succ hJson)
        show (if _ then _ else _) = (if _ then _ else _)
        rw [hDocuments]
    | null | bool | number | string | object => rfl

theorem agrees_replicated (h : Agrees n p q) (typeName : String) (count : Nat) :
    Agrees (n + 1) (replicated typeName p count) (replicated typeName q count) where
  typeName_eq := rfl
  width_eq := by
    show (fun _ => (p.width ()).map (Width.times count)) =
      fun _ => (q.width ()).map (Width.times count)
    rw [h.width_eq]
  flatten_eq hv := by
    rw [replicated_flatten, replicated_flatten]
    exact (agrees_sequence (forall₂_replicate h count) typeName).flatten_eq hv
  auxiliary_eq {v} hv := by
    cases v with
    | array items =>
        refine List.flatMap_congr fun item hItem => h.auxiliary_eq ?_
        exact Nat.le_trans (Value.height_le_of_mem hItem) (Nat.le_of_succ_le_succ hv)
    | signal | bit | record | primitive | opaqueValue => rfl
  check_eq hv := by
    rw [replicated_check, replicated_check]
    exact (agrees_sequence (forall₂_replicate h count) typeName).check_eq hv
  input_eq hv := by
    rw [replicated_input, replicated_input]
    exact (agrees_sequence (forall₂_replicate h count) typeName).input_eq hv
  encode_eq hv := by
    rw [replicated_encode, replicated_encode]
    exact (agrees_sequence (forall₂_replicate h count) typeName).encode_eq hv
  decode_eq hJson := by
    rw [replicated_decode, replicated_decode]
    exact (agrees_sequence (forall₂_replicate h count) typeName).decode_eq hJson

/-! ### Members -/

/-- Members have the same names, and their parts agree. -/
def MembersAgree (n : Nat) : List (String × Part) → List (String × Part) → Prop :=
  List.Forall₂ fun m m' => m.1 = m'.1 ∧ Agrees n m.2 m'.2

section Members

variable (h : MembersAgree n members members')
include h

theorem memberWidths_congr₂ : memberWidths members = memberWidths members' :=
  mapM_congr₂ (h.imp fun _ _ hMembers => congrFun hMembers.2.width_eq ())

theorem auxiliaryMembers_congr₂ {record : Entries Value}
    (hRecord : ∀ {key v}, record.find? key = some v → v.height ≤ n) :
    auxiliaryMembers members record = auxiliaryMembers members' record := by
  refine flatMap_congr₂ (h.imp ?_)
  rintro ⟨key, p⟩ ⟨_, q⟩ ⟨rfl, hAgrees⟩
  show ((record.find? key).map p.auxiliary).getD [] = ((record.find? key).map q.auxiliary).getD []
  cases hFind : record.find? key with
  | none => rfl
  | some v => exact hAgrees.auxiliary_eq (hRecord hFind)

theorem decodeMembers_congr₂ {document : Entries Json}
    (hDocument : ∀ {key json}, document.find? key = some json → json.height ≤ n) :
    decodeMembers members document = decodeMembers members' document := by
  refine congrArg (fun walk : OptionT (Except Error) (List (String × Value)) =>
    OptionT.run do return Entries.ofList (← walk)) (mapM_congr₂ (h.imp ?_))
  rintro ⟨key, p⟩ ⟨_, q⟩ ⟨rfl, hAgrees⟩
  show (OptionT.mk (pure (document.find? key)) >>= fun json =>
      OptionT.mk (p.decode json) >>= fun v => pure (key, v) : OptionT (Except Error) _) =
    (OptionT.mk (pure (document.find? key)) >>= fun json =>
      OptionT.mk (q.decode json) >>= fun v => pure (key, v))
  cases hFind : document.find? key with
  | none => rfl
  | some json =>
      show (OptionT.mk (p.decode json) >>= fun v => pure (key, v) : OptionT (Except Error) _) =
        (OptionT.mk (q.decode json) >>= fun v => pure (key, v))
      rw [hAgrees.decode_eq (hDocument hFind)]

variable (lookup : Lookup) (hLookup : ∀ {key v}, lookup key = .ok v → v.height ≤ n)
include hLookup

private theorem forall₂_lookup {γ : Type} (F : Part → Value → Except Error γ)
    (hF : ∀ {p q v}, Agrees n p q → v.height ≤ n → F p v = F q v) :
    List.Forall₂ (fun m m' => (lookup m.1 >>= F m.2) = (lookup m'.1 >>= F m'.2))
      members members' := by
  refine h.imp ?_
  rintro ⟨key, p⟩ ⟨_, q⟩ ⟨rfl, hAgrees⟩
  cases hFind : lookup key with
  | error e => rfl
  | ok v => exact hF hAgrees (hLookup hFind)

theorem flattenMembers_congr₂ : flattenMembers lookup members = flattenMembers lookup members' :=
  congrArg (· >>= fun chunks : List (List Signal) => pure chunks.flatten)
    (mapM_congr₂ (forall₂_lookup h lookup hLookup Part.flatten fun hParts => hParts.flatten_eq))

theorem inputMembers_congr₂ : inputMembers lookup members = inputMembers lookup members' :=
  congrArg (· >>= fun inputs => pure (HashInput.concat inputs))
    (mapM_congr₂ (forall₂_lookup h lookup hLookup Part.input fun hParts => hParts.input_eq))

theorem encodeMembers_congr₂ : encodeMembers lookup members = encodeMembers lookup members' := by
  refine congrArg (· >>= fun documents : List (String × Json) => pure (Json.ofMembers documents))
    (mapM_congr₂ (h.imp ?_))
  rintro ⟨key, p⟩ ⟨_, q⟩ ⟨rfl, hAgrees⟩
  show (lookup key >>= fun v => p.encode v >>= fun json => pure (key, json)) =
    (lookup key >>= fun v => q.encode v >>= fun json => pure (key, json))
  cases hFind : lookup key with
  | error e => rfl
  | ok v =>
      show (p.encode v >>= _) = (q.encode v >>= _)
      rw [hAgrees.encode_eq (hLookup hFind)]

theorem checkMembers_congr₂ : checkMembers lookup members = checkMembers lookup members' := by
  refine forM_congr₂ (h.imp ?_)
  rintro ⟨key, p⟩ ⟨_, q⟩ ⟨rfl, hAgrees⟩
  show (liftM (lookup key) >>= p.check : Circuit Unit) = (liftM (lookup key) >>= q.check)
  cases hFind : lookup key with
  | error e => rfl
  | ok v => exact hAgrees.check_eq (hLookup hFind)

end Members

theorem height_of_lookupKey {typeName key : String} {v item : Value} (hv : v.height ≤ n + 1)
    (h : lookupKey typeName v key = .ok item) : item.height ≤ n := by
  obtain ⟨tag?, record, rfl, hFind⟩ := lookupKey_eq_ok.1 h
  exact Nat.le_trans (Value.height_le_of_find? hFind) (Nat.le_of_succ_le_succ hv)

theorem agrees_object (h : MembersAgree n members members') (typeName : String) :
    Agrees (n + 1) (object typeName members) (object typeName members') where
  typeName_eq := rfl
  width_eq := by
    show (fun _ => (memberWidths members).map Width.sum) =
      fun _ => (memberWidths members').map Width.sum
    rw [memberWidths_congr₂ h]
  flatten_eq hv := flattenMembers_congr₂ h _ (height_of_lookupKey hv)
  auxiliary_eq {v} hv := by
    cases v with
    | record tag? record =>
        exact auxiliaryMembers_congr₂ h fun hFind =>
          Nat.le_trans (Value.height_le_of_find? hFind) (Nat.le_of_succ_le_succ hv)
    | signal | bit | array | primitive | opaqueValue => rfl
  check_eq hv := checkMembers_congr₂ h _ (height_of_lookupKey hv)
  input_eq hv := inputMembers_congr₂ h _ (height_of_lookupKey hv)
  encode_eq hv := encodeMembers_congr₂ h _ (height_of_lookupKey hv)
  decode_eq {json} hJson := by
    cases json with
    | object document =>
        refine congrArg (Except.map _) (decodeMembers_congr₂ h fun hFind => ?_)
        exact Nat.le_trans (Json.height_le_of_find? hFind) (Nat.le_of_succ_le_succ hJson)
    | null | bool | number | string | array => rfl

end Part

/-! ## Codecs -/

namespace Codec

variable {n : Nat} {c c' : Codec}

theorem toFields_congr₂ (h : Part.Agrees n c.uncounted c'.uncounted) {v : Value}
    (hv : v.height ≤ n) : c.toFields v = c'.toFields v := by
  have hFlat : c.flatten v = c'.flatten v := h.flatten_eq hv
  have hWidth : c.width = c'.width := h.width_eq
  have hName : c.typeName = c'.typeName := h.typeName_eq
  unfold toFields
  rw [hFlat, hWidth, hName]

theorem toInput_congr₂ (hCapabilities : c.capabilities = c'.capabilities)
    (h : Part.Agrees n c.uncounted c'.uncounted) {v : Value} (hv : v.height ≤ n) :
    c.toInput v = c'.toInput v := by
  have hInput : c.input v = c'.input v := h.input_eq hv
  have hName : c.typeName = c'.typeName := h.typeName_eq
  unfold toInput missing
  rw [hCapabilities, hInput, hName]

theorem agrees_part (hCapabilities : c.capabilities = c'.capabilities)
    (h : Part.Agrees n c.uncounted c'.uncounted) : Part.Agrees n c.part c'.part where
  typeName_eq := h.typeName_eq
  width_eq := h.width_eq
  flatten_eq := toFields_congr₂ h
  auxiliary_eq := h.auxiliary_eq
  check_eq := h.check_eq
  input_eq {v} hv := by
    show c.toInputOrFields v = c'.toInputOrFields v
    unfold toInputOrFields
    rw [hCapabilities, toInput_congr₂ hCapabilities h hv, toFields_congr₂ h hv]
  encode_eq {v} hv := by
    show c.toJson v = c'.toJson v
    have hEncode : c.encode v = c'.encode v := h.encode_eq hv
    have hName : c.typeName = c'.typeName := h.typeName_eq
    unfold toJson missing
    rw [hCapabilities, hEncode, hName]
  decode_eq {json} hJson := by
    show c.fromJson json = c'.fromJson json
    have hDecode : c.decode json = c'.decode json := h.decode_eq hJson
    have hName : c.typeName = c'.typeName := h.typeName_eq
    unfold fromJson missing
    rw [hCapabilities, hDecode, hName]

/-- Members have the same names and capabilities, and their codecs agree. -/
def MembersAgree (n : Nat) : List (String × Codec) → List (String × Codec) → Prop :=
  List.Forall₂ fun m m' => m.1 = m'.1 ∧ m.2.capabilities = m'.2.capabilities ∧
    Part.Agrees n m.2.uncounted m'.2.uncounted

theorem height_of_expectRecord {name : String} {v : Value} {record : Entries Value}
    (hv : v.height ≤ n + 1) (h : expectRecord name v = .ok record) {key : String} {item : Value}
    (hFind : record.find? key = some item) : item.height ≤ n := by
  obtain ⟨tag?, rfl⟩ := record_of_expectRecord h
  exact Nat.le_trans (Value.height_le_of_find? hFind) (Nat.le_of_succ_le_succ hv)

section Composite

variable {members members' : List (String × Codec)}

theorem MembersAgree.parts (h : MembersAgree n members members') :
    Part.MembersAgree n (memberParts members) (memberParts members') := by
  rw [Part.MembersAgree, memberParts, memberParts, List.forall₂_map_left_iff,
    List.forall₂_map_right_iff]
  exact h.imp fun m m' hm => ⟨hm.1, agrees_part hm.2.1 hm.2.2⟩

theorem MembersAgree.isEmpty_eq (h : MembersAgree n members members') :
    members.isEmpty = members'.isEmpty := by
  cases h <;> rfl

theorem MembersAgree.json_eq (h : MembersAgree n members members') :
    members.all (·.2.capabilities.json) = members'.all (·.2.capabilities.json) := by
  induction h with
  | nil => rfl
  | cons hHead _ ih => rw [List.all_cons, List.all_cons, hHead.2.1, ih]

/-- What visits the members of a record does the same if it does the same with what they find. -/
private theorem onMembers_congr {α : Type} (h : MembersAgree n members members') {name : String}
    {nothing : α} {visit visit' : Part.Lookup → Except Error α} {v : Value}
    (hv : v.height ≤ n + 1)
    (hVisit : ∀ lookup : Part.Lookup, (∀ {key item}, lookup key = .ok item → item.height ≤ n) →
      visit lookup = visit' lookup) :
    onMembers name members nothing visit v = onMembers name members' nothing visit' v := by
  unfold onMembers
  rw [h.isEmpty_eq]
  cases hRecord : expectRecord name v with
  | error e => rfl
  | ok record =>
      have hSame : visit (lookupMember name record) = visit' (lookupMember name record) :=
        hVisit _ fun hFind => height_of_expectRecord hv hRecord (lookupMember_eq_ok.1 hFind)
      show (if _ then _ else visit _) = (if _ then _ else visit' _)
      rw [hSame]

/-- Composites agree one level higher than their members. -/
theorem agrees_composite (h : MembersAgree n members members') (name : String) (json : Bool) :
    Part.Agrees (n + 1) (composite name json members).uncounted
      (composite name json members').uncounted where
  typeName_eq := rfl
  width_eq := by
    show (fun _ => (Part.memberWidths (memberParts members)).map Width.sum) =
      fun _ => (Part.memberWidths (memberParts members')).map Width.sum
    rw [Part.memberWidths_congr₂ h.parts]
  flatten_eq hv := onMembers_congr h hv fun _ => Part.flattenMembers_congr₂ h.parts _
  auxiliary_eq {v} hv := by
    show (composite name json members).auxiliary v = (composite name json members').auxiliary v
    cases hRecord : expectRecord name v with
    | error e => rw [auxiliary_composite_error hRecord, auxiliary_composite_error hRecord]
    | ok record =>
        rw [auxiliary_composite_ok hRecord, auxiliary_composite_ok hRecord]
        exact Part.auxiliaryMembers_congr₂ h.parts (height_of_expectRecord hv hRecord)
  check_eq {v} hv := by
    show (if members.isEmpty then _ else _) = (if members'.isEmpty then _ else _)
    rw [h.isEmpty_eq]
    cases hRecord : expectRecord name v with
    | error e => rfl
    | ok record =>
        have hSame := Part.checkMembers_congr₂ h.parts (lookupMember name record) fun hFind =>
          height_of_expectRecord hv hRecord (lookupMember_eq_ok.1 hFind)
        show (if _ then _ else Part.checkMembers (lookupMember name record) (memberParts members)) =
          (if _ then _ else Part.checkMembers (lookupMember name record) (memberParts members'))
        rw [hSame]
  input_eq hv := onMembers_congr h hv fun _ => Part.inputMembers_congr₂ h.parts _
  encode_eq {v} hv := by
    show (if _ then _ else _) = (if _ then _ else _)
    rw [h.json_eq]
    have hSame : onMembers name members (Json.object [])
          (fun lookup => Part.encodeMembers lookup (memberParts members)) v =
        onMembers name members' (Json.object [])
          (fun lookup => Part.encodeMembers lookup (memberParts members')) v :=
      onMembers_congr h hv fun _ => Part.encodeMembers_congr₂ h.parts _
    rw [hSame]
  decode_eq {document} hDocument := by
    show (if _ then _ else _) = (if _ then _ else _)
    rw [h.json_eq]
    cases document with
    | object entries =>
        have hSame : Part.decodeMembers (memberParts members) entries =
            Part.decodeMembers (memberParts members') entries :=
          Part.decodeMembers_congr₂ h.parts fun hFind =>
            Nat.le_trans (Json.height_le_of_find? hFind) (Nat.le_of_succ_le_succ hDocument)
        show (if _ then (Part.decodeMembers _ entries).map _ else _) =
          (if _ then (Part.decodeMembers _ entries).map _ else _)
        rw [hSame]
    | null | bool | number | string | array => rfl

end Composite

/-! ## Types -/

theorem agrees_ofPart {p q : Part} (h : Part.Agrees n p q) (capabilities : Capabilities) :
    Part.Agrees n (ofPart p capabilities).uncounted (ofPart q capabilities).uncounted :=
  ⟨h.typeName_eq, h.width_eq, h.flatten_eq, h.auxiliary_eq, h.check_eq, h.input_eq, h.encode_eq,
    h.decode_eq⟩

end Codec

/-- Agreement is kept by every way to assemble codecs. -/
theorem Part.congruence_agrees (n : Nat) : Part.Congruence (Agrees n) where
  leaf _ := Agrees.refl n _
  part := Codec.agrees_part
  withWidth h _ := { h with width_eq := rfl }
  ofPart := Codec.agrees_ofPart
  sequence typeName _ _ h := (agrees_sequence h typeName).mono (Nat.le_succ n)
  replicated typeName _ _ h count := (agrees_replicated h typeName count).mono (Nat.le_succ n)
  object typeName _ _ h := (agrees_object h typeName).mono (Nat.le_succ n)
  constant _ _ := Agrees.refl n _
  empty _ := Agrees.refl n _
  plain _ _ _ _ h :=
    ⟨rfl, h.width_eq, Codec.toFields_congr₂ h, h.auxiliary_eq, h.check_eq, fun _ => rfl,
      fun _ => rfl, fun _ => rfl⟩
  misdeclared _ _ _ := Agrees.refl n _

end TypedCircuit
