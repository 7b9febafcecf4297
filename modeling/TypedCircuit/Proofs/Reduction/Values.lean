import TypedCircuit.Proofs.Passes.Alike

/-!
# What a pass lacks

A compile pass sees less than a prove pass over the same body: its variables have no values, and
its witnesses have nulls in place of host data. Between the two stands a prove pass of which the
witnesses have the same elements, and nulls in place of host data. A *loss* says what the second
of two passes lacks that the first one has.

A value *reduces* to what is left of it. Nothing but values of variables and host data is lost, so
what is left of a value has its form and its wires.

## Main results

* `Value.Reduces.alike` — a value and what is left of it are alike.
* `Value.reduces_blank` — a value without its host data.
* `Value.HostData.eq_of_reduces` — host data that cannot be lost is the same.
-/

namespace TypedCircuit

/-- What the second of two passes lacks that the first one has. -/
structure Loss where
  /-- Variables may have lost their values. -/
  values : Prop
  /-- Host data may be what it was. -/
  keeps : Prop
  /-- Host data may have become a null. -/
  blanks : Prop

variable {loss : Loss}

/-! ## Signals -/

/-- A signal without the value of its variable. -/
def Signal.erased : Signal → Signal
  | .constant x => .constant x
  | .variable v => .variable ⟨v.index, none⟩

/-- What may be left of a signal. -/
def Signal.Reduces (loss : Loss) (s t : Signal) : Prop := t = s ∨ (loss.values ∧ t = s.erased)

namespace Signal

variable {s t : Signal}

theorem Reduces.refl (s : Signal) : s.Reduces loss s := .inl rfl

theorem Reduces.alike (h : s.Reduces loss t) : s.Alike t := by
  rcases h with rfl | ⟨-, rfl⟩
  · rfl
  · cases s <;> rfl

/-- Without a loss of values a signal is what it was. -/
theorem Reduces.eq (h : s.Reduces loss t) (hValues : ¬ loss.values) : t = s := by
  rcases h with hSame | ⟨hLost, -⟩
  · exact hSame
  · exact absurd hLost hValues

/-- What is still known of a signal was known before. -/
theorem Reduces.known (h : s.Reduces loss t) {x : Element} (hKnown : t.known? = some x) :
    s.known? = some x := by
  rcases h with rfl | ⟨-, rfl⟩
  · exact hKnown
  · rcases s with y | v
    · exact hKnown
    · cases hKnown

/-- An alike signal of which nothing is known but a constant is what is left. -/
theorem Reduces.of_alike (h : s.Alike t) (hErased : t.erased = t) (hValues : loss.values) :
    s.Reduces loss t := by
  refine .inr ⟨hValues, ?_⟩
  rw [← hErased]
  rcases s with x | ⟨i, x?⟩ <;> rcases t with y | ⟨j, y?⟩ <;> cases h <;> rfl

end Signal

/-- What may be left of signals, one by one. -/
abbrev SignalsReduce (loss : Loss) (fields fields' : List Signal) : Prop :=
  List.Forall₂ (Signal.Reduces loss) fields fields'

/-- Without a loss of values signals are what they were. -/
theorem SignalsReduce.eq {fields fields' : List Signal} (h : SignalsReduce loss fields fields')
    (hValues : ¬ loss.values) : fields' = fields := by
  induction h with
  | nil => rfl
  | cons hHead _ ih => rw [hHead.eq hValues, ih]

theorem SignalsReduce.refl (fields : List Signal) : SignalsReduce loss fields fields :=
  List.forall₂_same.2 fun s _ => .refl s

theorem SignalsReduce.of_alike {fields fields' : List Signal} (h : SignalsAlike fields fields')
    (hErased : ∀ t ∈ fields', t.erased = t) (hValues : loss.values) :
    SignalsReduce loss fields fields' := by
  induction h with
  | nil => exact .nil
  | cons hHead _ ih =>
      obtain ⟨hFirst, hOthers⟩ := List.forall_mem_cons.1 hErased
      exact .cons (.of_alike hHead hFirst hValues) (ih hOthers)

/-- What may be left of a bit. -/
def Bit.Reduces (loss : Loss) (a b : Bit) : Prop := a.signal.Reduces loss b.signal

theorem Bit.Reduces.eq {a b : Bit} (h : a.Reduces loss b) (hValues : ¬ loss.values) : b = a :=
  congrArg Bit.mk (Signal.Reduces.eq h hValues)

/-! ## Values -/

mutual

/-- What may be left of a value. -/
inductive Value.Reduces (loss : Loss) : Value → Value → Prop where
  | signal {s t : Signal} (h : s.Reduces loss t) : Value.Reduces loss (.signal s) (.signal t)
  | bit {a b : Bit} (h : a.Reduces loss b) : Value.Reduces loss (.bit a) (.bit b)
  | array {xs ys : List Value} (h : Value.ItemsReduce loss xs ys) :
    Value.Reduces loss (.array xs) (.array ys)
  | record (tag? : Option String) {xs ys : List (String × Value)}
    (h : Value.MembersReduce loss xs ys) :
    Value.Reduces loss (.record tag? xs) (.record tag? ys)
  | primitive (json : Json) : Value.Reduces loss (.primitive json) (.primitive json)
  | kept (h : loss.keeps) (identity : String) :
    Value.Reduces loss (.opaqueValue identity) (.opaqueValue identity)
  | blanked (h : loss.blanks) (identity : String) :
    Value.Reduces loss (.opaqueValue identity) (.primitive .null)

/-- What may be left of items, one by one. -/
inductive Value.ItemsReduce (loss : Loss) : List Value → List Value → Prop where
  | nil : Value.ItemsReduce loss [] []
  | cons {v w : Value} {xs ys : List Value} (h : Value.Reduces loss v w)
    (hRest : Value.ItemsReduce loss xs ys) : Value.ItemsReduce loss (v :: xs) (w :: ys)

/-- What may be left of members, one by one. -/
inductive Value.MembersReduce (loss : Loss) :
    List (String × Value) → List (String × Value) → Prop where
  | nil : Value.MembersReduce loss [] []
  | cons (name : String) {v w : Value} {xs ys : List (String × Value)}
    (h : Value.Reduces loss v w) (hRest : Value.MembersReduce loss xs ys) :
    Value.MembersReduce loss ((name, v) :: xs) ((name, w) :: ys)

end

/-- What may be left of values, one by one. -/
abbrev ValuesReduce (loss : Loss) (items items' : List Value) : Prop :=
  List.Forall₂ (Value.Reduces loss) items items'

namespace Value

theorem itemsReduce_iff {xs ys : List Value} :
    ItemsReduce loss xs ys ↔ ValuesReduce loss xs ys := by
  constructor
  · intro h
    induction xs generalizing ys with
    | nil => cases h; exact .nil
    | cons x xs ih =>
        cases h with
        | cons hHead hRest => exact .cons hHead (ih hRest)
  · intro h
    induction h with
    | nil => exact .nil
    | cons hHead _ ih => exact .cons hHead ih

theorem membersReduce_iff {xs ys : List (String × Value)} :
    MembersReduce loss xs ys ↔ EntriesRelated (Reduces loss) xs ys := by
  constructor
  · intro h
    induction xs generalizing ys with
    | nil => cases h; exact .nil
    | cons x xs ih =>
        cases h with
        | cons name hHead hRest => exact .cons ⟨rfl, hHead⟩ (ih hRest)
  · intro h
    induction h with
    | nil => exact .nil
    | @cons x y _ _ hHead _ ih =>
        obtain ⟨name, v⟩ := x
        obtain ⟨rfl, hv⟩ : name = y.1 ∧ v.Reduces loss y.2 := hHead
        exact .cons y.1 hv ih

theorem Reduces.of_items {xs ys : List Value} (h : ValuesReduce loss xs ys) :
    Reduces loss (.array xs) (.array ys) := .array (itemsReduce_iff.2 h)

mutual

/-- A value and what is left of it are alike. -/
theorem Reduces.alike : ∀ {v w : Value}, v.Reduces loss w → v.Alike w
  | _, _, .signal h => .signal h.alike
  | _, _, .bit h => .bit (Signal.Reduces.alike h)
  | _, _, .array h => .array (ItemsReduce.alike h)
  | _, _, .record tag? h => .record tag? (MembersReduce.alike h)
  | _, _, .primitive json => .primitive json
  | _, _, .kept _ _ => .hostData rfl rfl
  | _, _, .blanked _ _ => .hostData rfl rfl

theorem ItemsReduce.alike : ∀ {xs ys : List Value}, ItemsReduce loss xs ys → ItemsAlike xs ys
  | _, _, .nil => .nil
  | _, _, .cons h hRest => .cons (Reduces.alike h) (ItemsReduce.alike hRest)

theorem MembersReduce.alike : ∀ {xs ys : List (String × Value)}, MembersReduce loss xs ys →
    MembersAlike xs ys
  | _, _, .nil => .nil
  | _, _, .cons name h hRest => .cons name (Reduces.alike h) (MembersReduce.alike hRest)

end

mutual

/-- Where host data may be kept, a value may be what it was. -/
theorem Reduces.refl (h : loss.keeps) : ∀ v : Value, v.Reduces loss v
  | .signal s => .signal (.refl s)
  | .bit b => .bit (.refl b.signal)
  | .array items => .array (ItemsReduce.refl h items)
  | .record tag? members => .record tag? (MembersReduce.refl h members)
  | .primitive json => .primitive json
  | .opaqueValue identity => .kept h identity

theorem ItemsReduce.refl (h : loss.keeps) : ∀ items : List Value, ItemsReduce loss items items
  | [] => .nil
  | v :: rest => .cons (Reduces.refl h v) (ItemsReduce.refl h rest)

theorem MembersReduce.refl (h : loss.keeps) :
    ∀ members : List (String × Value), MembersReduce loss members members
  | [] => .nil
  | (name, v) :: rest => .cons name (Reduces.refl h v) (MembersReduce.refl h rest)

end

/-! ## Looking inside -/

variable {v w : Value}

theorem Reduces.signal? (h : v.Reduces loss w) :
    Option.Rel (Signal.Reduces loss) v.signal? w.signal? := by
  cases h with
  | signal h => exact .some h
  | bit | array | record | primitive | kept | blanked => exact .none

theorem Reduces.bit? (h : v.Reduces loss w) :
    Option.Rel (Bit.Reduces loss) v.bit? w.bit? := by
  cases h with
  | bit h => exact .some h
  | signal | array | record | primitive | kept | blanked => exact .none

theorem Reduces.items? (h : v.Reduces loss w) :
    Option.Rel (ValuesReduce loss) v.items? w.items? := by
  cases h with
  | array h => exact .some (itemsReduce_iff.1 h)
  | signal | bit | record | primitive | kept | blanked => exact .none

theorem Reduces.record? (h : v.Reduces loss w) :
    Option.Rel (fun a b => a.1 = b.1 ∧ MembersReduce loss a.2 b.2) v.record? w.record? := by
  cases h with
  | record tag? h => exact .some ⟨rfl, h⟩
  | signal | bit | array | primitive | kept | blanked => exact .none

variable {xs ys : Entries Value}

theorem MembersReduce.find? (h : MembersReduce loss xs ys) (name : String) :
    Option.Rel (Reduces loss) (Entries.find? xs name) (Entries.find? ys name) :=
  (membersReduce_iff.1 h).find? name

/-- What is left of a member is found under its name. -/
theorem MembersReduce.exists_find? (h : MembersReduce loss xs ys) {name : String}
    (hFind : Entries.find? xs name = some v) :
    ∃ w, Entries.find? ys name = some w ∧ v.Reduces loss w := by
  have hFound := h.find? name
  rw [hFind] at hFound
  cases hOther : Entries.find? ys name with
  | none => rw [hOther] at hFound; cases hFound
  | some w =>
      rw [hOther] at hFound
      cases hFound with
      | some hValue => exact ⟨w, rfl, hValue⟩

theorem MembersReduce.insert (h : MembersReduce loss xs ys) (name : String)
    (hv : v.Reduces loss w) :
    MembersReduce loss (Entries.insert xs name v) (Entries.insert ys name w) :=
  membersReduce_iff.2 ((membersReduce_iff.1 h).insert name hv)

theorem MembersReduce.ofList (h : MembersReduce loss xs ys) :
    MembersReduce loss (Entries.ofList xs) (Entries.ofList ys) :=
  membersReduce_iff.2 (membersReduce_iff.1 h).ofList

/-! ## Host data -/

/-- What is left of host data is host data. -/
theorem HostData.of_reduces (hv : v.HostData) (h : v.Reduces loss w) : w.HostData := by
  rcases hv.form with rfl | ⟨identity, rfl⟩
  · cases h
    rfl
  · cases h <;> rfl

/-- Host data that cannot be lost is what it was. -/
theorem HostData.eq_of_reduces (hv : v.HostData) (h : v.Reduces loss w) (hBlanks : ¬ loss.blanks) :
    w = v := by
  rcases hv.form with rfl | ⟨identity, rfl⟩
  · cases h
    rfl
  · cases h with
    | kept => rfl
    | blanked hLost => exact absurd hLost hBlanks

/-- Host data that cannot be kept becomes a null. -/
theorem HostData.eq_null_of_reduces (hv : v.HostData) (h : v.Reduces loss w)
    (hKeeps : ¬ loss.keeps) : w = null := by
  rcases hv.form with rfl | ⟨identity, rfl⟩
  · cases h
    rfl
  · cases h with
    | kept hKept => exact absurd hKept hKeeps
    | blanked => rfl

theorem nulls_reduce (count : Nat) :
    ValuesReduce loss (List.replicate count null) (List.replicate count null) :=
  List.forall₂_same.2 fun _ hv => List.eq_of_mem_replicate hv ▸ .primitive .null

section

variable {items items' : List Value}

theorem hostData_of_reduces (h : ValuesReduce loss items items')
    (hHostData : ∀ v ∈ items, v.HostData) : ∀ v ∈ items', v.HostData := by
  induction h with
  | nil => exact List.forall_mem_nil _
  | cons hHead _ ih =>
      obtain ⟨hFirst, hOthers⟩ := List.forall_mem_cons.1 hHostData
      exact List.forall_mem_cons.2 ⟨hFirst.of_reduces hHead, ih hOthers⟩

theorem eq_of_reduces (h : ValuesReduce loss items items') (hHostData : ∀ v ∈ items, v.HostData)
    (hBlanks : ¬ loss.blanks) : items' = items := by
  induction h with
  | nil => rfl
  | cons hHead _ ih =>
      obtain ⟨hFirst, hOthers⟩ := List.forall_mem_cons.1 hHostData
      rw [hFirst.eq_of_reduces hHead hBlanks, ih hOthers]

theorem eq_null_of_reduces (h : ValuesReduce loss items items')
    (hHostData : ∀ v ∈ items, v.HostData) (hKeeps : ¬ loss.keeps) : ∀ v ∈ items', v = null := by
  induction h with
  | nil => exact List.forall_mem_nil _
  | cons hHead _ ih =>
      obtain ⟨hFirst, hOthers⟩ := List.forall_mem_cons.1 hHostData
      exact List.forall_mem_cons.2 ⟨hFirst.eq_null_of_reduces hHead hKeeps, ih hOthers⟩

end

mutual

/-- A value with nulls in place of host data. -/
def blank : Value → Value
  | .signal s => .signal s
  | .bit b => .bit b
  | .array items => .array (blankItems items)
  | .record tag? members => .record tag? (blankMembers members)
  | .primitive json => .primitive json
  | .opaqueValue _ => null

/-- Items with nulls in place of host data. -/
def blankItems : List Value → List Value
  | [] => []
  | v :: rest => v.blank :: blankItems rest

/-- Members with nulls in place of host data. -/
def blankMembers : List (String × Value) → List (String × Value)
  | [] => []
  | (name, v) :: rest => (name, v.blank) :: blankMembers rest

end

mutual

/-- There is nothing to lose twice. -/
theorem blank_blank : ∀ v : Value, v.blank.blank = v.blank
  | .signal _ => rfl
  | .bit _ => rfl
  | .array items => congrArg Value.array (blankItems_blankItems items)
  | .record tag? members => congrArg (Value.record tag?) (blankMembers_blankMembers members)
  | .primitive _ => rfl
  | .opaqueValue _ => rfl

theorem blankItems_blankItems : ∀ items : List Value,
    blankItems (blankItems items) = blankItems items
  | [] => rfl
  | v :: rest => congrArg₂ List.cons (blank_blank v) (blankItems_blankItems rest)

theorem blankMembers_blankMembers : ∀ members : List (String × Value),
    blankMembers (blankMembers members) = blankMembers members
  | [] => rfl
  | (name, v) :: rest =>
      congrArg₂ List.cons (congrArg (Prod.mk name) (blank_blank v)) (blankMembers_blankMembers rest)

end

mutual

/-- Where host data may be lost, a value without its host data may be left of it. -/
theorem reduces_blank (h : loss.blanks) : ∀ v : Value, v.Reduces loss v.blank
  | .signal s => .signal (.refl s)
  | .bit b => .bit (.refl b.signal)
  | .array items => .array (itemsReduce_blank h items)
  | .record tag? members => .record tag? (membersReduce_blank h members)
  | .primitive json => .primitive json
  | .opaqueValue identity => .blanked h identity

theorem itemsReduce_blank (h : loss.blanks) :
    ∀ items : List Value, ItemsReduce loss items (blankItems items)
  | [] => .nil
  | v :: rest => .cons (reduces_blank h v) (itemsReduce_blank h rest)

theorem membersReduce_blank (h : loss.blanks) :
    ∀ members : List (String × Value), MembersReduce loss members (blankMembers members)
  | [] => .nil
  | (name, v) :: rest => .cons name (reduces_blank h v) (membersReduce_blank h rest)

end

end Value

end TypedCircuit
