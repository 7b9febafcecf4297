import TypedCircuit.Proofs.Assigned.Identity

/-!
# Sameness is equality of what is assigned

Comparing assigned values walks through two values in step and stops at the first difference. It
looks up the members of a record in the other one, but not the other way round, and it meets
constants, variables and bits in any mix. So it cannot be seen from the walk that the comparison is
symmetric or transitive.

Where every signal has a value, the walk comes to an answer, and the answer is that of a simpler
question: whether the two values are equal once every variable is replaced by the constant it holds.
Equality of values is an equivalence, and hence so is sameness.

## Main results

* `Value.sameValue_decides` — the answer for two values of which everything is known.
* `Value.sameValue_assigned` — sameness as an equality, and what follows from that.
-/

namespace TypedCircuit

/-! ## What is assigned -/

/-- The signal, or the constant that it holds. -/
def Signal.assigned (s : Signal) : Signal :=
  match s.known? with
  | some x => .constant x
  | none => s

theorem Signal.assigned_eq {s : Signal} {x : Element} (h : s.known? = some x) :
    s.assigned = .constant x := by
  unfold assigned
  rw [h]

namespace Value

mutual

/-- The value, with every variable replaced by the constant that it holds. -/
def assigned : Value → Value
  | .signal s => .signal s.assigned
  | .bit b => .bit ⟨b.signal.assigned⟩
  | .array items => .array (assignedOfItems items)
  | .record typeName? members => .record typeName? (assignedOfMembers members)
  | .primitive json => .primitive json
  | .opaqueValue identity => .opaqueValue identity

/-- The items, with every variable replaced. -/
def assignedOfItems : List Value → List Value
  | [] => []
  | v :: rest => v.assigned :: assignedOfItems rest

/-- The members, with every variable replaced. -/
def assignedOfMembers : List (String × Value) → List (String × Value)
  | [] => []
  | (name, v) :: rest => (name, v.assigned) :: assignedOfMembers rest

end

/-- Every field element in a value has a value, every bit is zero or one, and the members of every
record are in order. -/
inductive Known : Value → Prop where
  | signal {s : Signal} {x : Element} (h : s.known? = some x) : Known (.signal s)
  | bit {b : Bit} {t : Bool} (h : b.value = .ok t) : Known (.bit b)
  | array {items : List Value} (h : ∀ v ∈ items, Known v) : Known (.array items)
  | record {typeName? : Option String} {members : Entries Value} (hSorted : members.Sorted)
    (h : ∀ m ∈ members, Known m.2) : Known (.record typeName? members)
  | primitive (json : Json) : Known (.primitive json)
  | opaqueValue (identity : String) : Known (.opaqueValue identity)

theorem assignedOfItems_eq (items : List Value) : assignedOfItems items = items.map assigned := by
  induction items with
  | nil => rfl
  | cons v rest ih => rw [assignedOfItems, ih, List.map_cons]

theorem assignedOfMembers_eq (members : List (String × Value)) :
    assignedOfMembers members = members.map fun m => (m.1, m.2.assigned) := by
  induction members with
  | nil => rfl
  | cons m rest ih => rw [assignedOfMembers, ih, List.map_cons]

mutual

/-- Replacing variables does not touch host data. -/
theorem content_assigned : ∀ v : Value, v.assigned.content = v.content.assigned
  | .signal _ => rfl
  | .bit _ => rfl
  | .array items => by
      rw [assigned, content, content, assigned, contentOfItems_assigned items]
  | .record _ members => by
      rw [assigned, content, content, assigned, contentOfMembers_assigned members]
  | .primitive _ => rfl
  | .opaqueValue _ => rfl

theorem contentOfItems_assigned : ∀ items : List Value,
    contentOfItems (assignedOfItems items) = assignedOfItems (contentOfItems items)
  | [] => rfl
  | v :: rest => by
      rw [assignedOfItems, contentOfItems, content_assigned v, contentOfItems_assigned rest]
      rfl

theorem contentOfMembers_assigned : ∀ members : List (String × Value),
    contentOfMembers (assignedOfMembers members) = assignedOfMembers (contentOfMembers members)
  | [] => rfl
  | (name, v) :: rest => by
      rw [assignedOfMembers, contentOfMembers, content_assigned v, contentOfMembers_assigned rest]
      rfl

end

/-- Values of one wiring are equal once their variables are replaced. -/
theorem assigned_beq {v w : Value} (h : (v == w) = true) : (v.assigned == w.assigned) = true := by
  refine (beq_iff v.assigned w.assigned).2 ?_
  rw [content_assigned, content_assigned, (beq_iff v w).1 h]

/-! ## Equality part by part -/

theorem array_beq_iff {items others : List Value} :
    (Value.array items == .array others) = true ↔
      List.Forall₂ (fun v w => (v == w) = true) items others := by
  show beqItems items others = true ↔ _
  induction items generalizing others with
  | nil => cases others <;> simp [beqItems]
  | cons v items ih =>
      cases others with
      | nil => simp [beqItems]
      | cons w others => rw [beqItems, Bool.and_eq_true, ih, List.forall₂_cons]; rfl

theorem record_beq_iff {tag? tag'? : Option String} {members others : Entries Value} :
    (Value.record tag? members == .record tag'? others) = true ↔ tag? = tag'? ∧
      List.Forall₂ (fun m n => m.1 = n.1 ∧ (m.2 == n.2) = true) members others := by
  show (tag? == tag'? && beqMembers members others) = true ↔ _
  rw [Bool.and_eq_true, beq_iff_eq]
  refine and_congr_right fun _ => ?_
  induction members generalizing others with
  | nil => cases others <;> simp [beqMembers]
  | cons m members ih =>
      obtain ⟨name, v⟩ := m
      cases others with
      | nil => simp [beqMembers]
      | cons n others =>
          obtain ⟨other, w⟩ := n
          rw [beqMembers, Bool.and_eq_true, Bool.and_eq_true, beq_iff_eq, ih, List.forall₂_cons]
          rfl

/-! ## The answer -/

/-- Whether two values are equal once their variables are replaced is found out. -/
abbrev Settles (v w : Value) : Prop :=
  Decides (v.sameValue w) ((v.assigned == w.assigned) = true)

theorem settles_of_ne {v w : Value} (h : v.sameValue w = .ok false)
    (hAssigned : (v.assigned == w.assigned) = false) : v.Settles w :=
  ⟨false, h, iff_of_false Bool.false_ne_true (ne_true_of_eq_false hAssigned)⟩

theorem settles_array {items others : List Value}
    (h : ∀ v ∈ items, ∀ w ∈ others, v.Settles w) : (Value.array items).Settles (.array others) := by
  have hEqual : ((Value.array items).assigned == (Value.array others).assigned) = true ↔
      List.Forall₂ (fun v w => (v.assigned == w.assigned) = true) items others := by
    rw [assigned, assigned, assignedOfItems_eq, assignedOfItems_eq, array_beq_iff,
      List.forall₂_map_left_iff, List.forall₂_map_right_iff]
  refine Decides.congr ?_ hEqual.symm
  by_cases hLength : items.length = others.length
  · have hItems : List.Forall₂ Settles items others :=
      List.forall₂_iff_zip.2 ⟨hLength, fun hMem =>
        h _ (List.of_mem_zip hMem).1 _ (List.of_mem_zip hMem).2⟩
    have hComparable : List.Forall₂ Comparable items others :=
      hItems.imp fun _ _ hSettles => ⟨_, hSettles.choose_spec.1⟩
    refine (sameValue_array hComparable).congr ⟨?_, ?_⟩
    · exact fun hSame => hItems.mp (fun _ _ hSettles => hSettles.ok_true_iff.1) hSame
    · exact fun hAll => hItems.mp (fun _ _ hSettles => hSettles.ok_true_iff.2) hAll
  · refine ⟨false, ?_, iff_of_false Bool.false_ne_true fun hAll => hLength hAll.length_eq⟩
    rw [sameValue, if_pos hLength]

theorem settles_record {tag? tag'? : Option String} {members others : Entries Value}
    (hMembers : members.Sorted) (hOthers : others.Sorted)
    (h : ∀ m ∈ members, ∀ n ∈ others, m.2.Settles n.2) :
    (Value.record tag? members).Settles (.record tag'? others) := by
  have hEqual : ((Value.record tag? members).assigned == (Value.record tag'? others).assigned) =
      true ↔ tag? = tag'? ∧
        List.Forall₂ (fun m n => m.1 = n.1 ∧ (m.2.assigned == n.2.assigned) = true) members
          others := by
    rw [assigned, assigned, assignedOfMembers_eq, assignedOfMembers_eq, record_beq_iff,
      List.forall₂_map_left_iff, List.forall₂_map_right_iff]
  refine Decides.congr ?_ hEqual.symm
  by_cases hLength : members.length = others.length
  · by_cases hTag : tag? = tag'?
    · -- There are as many members on both sides, so looking them up in one direction is enough.
      have hFound : ∀ m ∈ members, ∀ w, others.find? m.1 = some w → m.2.Settles w :=
        fun m hm w hw => h m hm _ (Entries.mem_of_find? hw)
      rw [sameValue, if_neg (by simp [hTag, hLength]), and_iff_right hTag,
        hMembers.forall₂_iff_finds (R := fun v w => (v.assigned == w.assigned) = true) hOthers
          hLength]
      refine (sameMembers_decides fun m hm w hw => ?_).congr ?_
      · exact ⟨_, (hFound m hm w hw).choose_spec.1⟩
      · refine forall₂_congr fun m hm => exists_congr fun w => and_congr_right fun hw => ?_
        exact (hFound m hm w hw).ok_true_iff
    · refine ⟨false, ?_, iff_of_false Bool.false_ne_true fun hAll => hTag hAll.1⟩
      rw [sameValue, if_pos (.inl hTag)]
  · refine ⟨false, ?_, iff_of_false Bool.false_ne_true fun hAll => hLength hAll.2.length_eq⟩
    rw [sameValue, if_pos (.inr hLength)]

/-- Comparing two values of which everything is known tells whether they are equal once every
variable is replaced by the constant it holds. -/
theorem sameValue_decides {v w : Value} (hv : v.Known) (hw : w.Known) : v.Settles w := by
  induction hv generalizing w with
  | @signal s x hs =>
      cases hw with
      | @signal s' y hs' =>
          refine (sameValue_signal hs hs').congr ?_
          rw [assigned, assigned, Signal.assigned_eq hs, Signal.assigned_eq hs']
          show x = y ↔ (Signal.constant x == .constant y) = true
          rw [beq_iff_eq, Signal.constant.injEq]
      | bit | array | record | primitive | opaqueValue => exact settles_of_ne rfl rfl
  | @bit b t hb =>
      cases hw with
      | @bit b' t' hb' =>
          have hKnown := Bit.value_eq_ok.1 hb
          have hKnown' := Bit.value_eq_ok.1 hb'
          refine (sameValue_bit b b' hKnown hKnown' ⟨t, hb⟩ ⟨t', hb'⟩).congr ?_
          rw [assigned, assigned, Signal.assigned_eq hKnown, Signal.assigned_eq hKnown']
          show _ ↔ (Bit.mk _ == Bit.mk _) = true
          rw [beq_iff_eq, Bit.mk.injEq, Signal.constant.injEq]
      | signal | array | record | primitive | opaqueValue => exact settles_of_ne rfl rfl
  | array _ ih =>
      cases hw with
      | array hOthers => exact settles_array fun v hv w hw => ih v hv (hOthers w hw)
      | signal | bit | record | primitive | opaqueValue => exact settles_of_ne rfl rfl
  | record hSorted _ ih =>
      cases hw with
      | record hSorted' hOthers =>
          exact settles_record hSorted hSorted' fun m hm n hn => ih m hm (hOthers n hn)
      | signal | bit | array | primitive | opaqueValue => exact settles_of_ne rfl rfl
  | primitive json =>
      cases hw with
      | primitive other => exact ⟨json == other, rfl, Iff.rfl⟩
      | signal | bit | array | record | opaqueValue => exact settles_of_ne rfl rfl
  | opaqueValue identity =>
      cases hw with
      | opaqueValue other => exact ⟨identity == other, rfl, Iff.rfl⟩
      | signal | bit | array | record | primitive => exact settles_of_ne rfl rfl

/--
Comparing two values of which everything is known never fails, and answers whether the two are equal
once every variable is replaced by the constant it holds. So sameness is an equivalence on such
values, and values of one wiring are the same.
-/
theorem sameValue_assigned :
    (∀ v w : Value, v.Known → w.Known → v.sameValue w = .ok (v.assigned == w.assigned)) ∧
    Equivalence (fun v w : {v : Value // v.Known} => v.1.Same w.1) ∧
    ∀ v w : Value, v.Known → w.Known → (v == w) = true → v.Same w := by
  have hSame {v w : Value} (hv : v.Known) (hw : w.Known) :
      v.Same w ↔ (v.assigned == w.assigned) = true := (sameValue_decides hv hw).ok_true_iff
  refine ⟨fun v w hv hw => ?_, ⟨fun v => ?_, fun {v w} h => ?_, fun {u v w} h h' => ?_⟩,
    fun v w hv hw h => (hSame hv hw).2 (assigned_beq h)⟩
  · obtain ⟨b, hb, hIff⟩ := sameValue_decides hv hw
    rw [hb, Bool.eq_iff_iff.2 hIff]
  · exact (hSame v.2 v.2).2 (beq_self_eq_true _)
  · exact (hSame w.2 v.2).2 (BEq.symm ((hSame v.2 w.2).1 h))
  · exact (hSame u.2 w.2).2 (BEq.trans ((hSame u.2 v.2).1 h) ((hSame v.2 w.2).1 h'))

/-- A receipt: an amount in an array next to a host value, a note, and whether it is paid. -/
private def receipt (amount paid : Signal) (note : Json) : Value :=
  .record (some "Receipt")
    [("lines", .array [.signal amount, .opaqueValue "scan"]), ("note", .primitive note),
      ("paid", .bit ⟨paid⟩)]

private theorem known_receipt {amount paid : Signal} {x : Element} {t : Bool} (note : Json)
    (hAmount : amount.known? = some x) (hPaid : (Bit.mk paid).value = .ok t) :
    (receipt amount paid note).Known := by
  have hSorted : ["lines", "note", "paid"].Pairwise (· < ·) := by decide
  refine .record hSorted ?_
  simp only [List.forall_mem_cons]
  refine ⟨.array ?_, .primitive note, .bit hPaid, List.forall_mem_nil _⟩
  simp only [List.forall_mem_cons]
  exact ⟨.signal hAmount, .opaqueValue _, List.forall_mem_nil _⟩

/-- Receipts over variables are wired differently from a receipt of constants, and from each other;
they are the same if the variables hold the constants, even if one note is zero and the other minus
zero. -/
theorem sameValue_assigned_receipt :
    let plain := receipt (.constant 8) .one (.number (.float (.zero false)))
    let wired := receipt (.variable ⟨0, some 8⟩) (.variable ⟨1, some 1⟩)
      (.number (.float (.zero true)))
    let unpaid := receipt (.variable ⟨0, some 8⟩) (.variable ⟨1, some 0⟩)
      (.number (.float (.zero true)))
    (plain.Known ∧ wired.Known ∧ unpaid.Known) ∧ (plain == wired) = false ∧
      plain.sameValue wired = .ok true ∧ wired.Same plain ∧ plain.sameValue unpaid = .ok false := by
  intro plain wired unpaid
  have hPlain : plain.Known := known_receipt (t := true) _ rfl rfl
  have hWired : wired.Known := known_receipt (t := true) _ rfl rfl
  have hUnpaid : unpaid.Known := known_receipt (t := false) _ rfl rfl
  have hSame : plain.sameValue wired = .ok true :=
    (sameValue_assigned.1 plain wired hPlain hWired).trans (congrArg Except.ok (by decide))
  have hSymm : wired.Same plain :=
    sameValue_assigned.2.1.symm (x := ⟨plain, hPlain⟩) (y := ⟨wired, hWired⟩) hSame
  refine ⟨⟨hPlain, hWired, hUnpaid⟩, by decide, hSame, hSymm, ?_⟩
  exact (sameValue_assigned.1 plain unpaid hPlain hUnpaid).trans (congrArg Except.ok (by decide))

end Value

end TypedCircuit
