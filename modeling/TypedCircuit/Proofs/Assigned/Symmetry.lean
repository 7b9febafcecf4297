import TypedCircuit.Proofs.Assigned.Sameness

/-!
# Comparing in both orders

A comparison stops at the first difference, and a value that is missing behind it is not noticed.
For arrays both orders come to the same first difference. For records they need not: the members
are taken in the order of the names of the left record, so of two records with different names each
side may run into a missing value before it comes to a name that the other one does not have.

This is the only way in which the two orders differ. Two values are uneven when the walk through
them reaches such a pair of records: on the left the next name is missing in the other record, on
the right there is a value to read first that is not there.

## Main results

* `Value.mirrored` — what the two orders say, for all values at once.
* `Value.Known.not_uneven` — the orders agree where no value is missing.
* `Value.sameValue_symmetric_iff` — both orders give the same answers unless the values are uneven.
-/

namespace TypedCircuit

/-! ## Two answers -/

/-- The first answer; if it is yes, the second one. -/
def followedBy (x y : Except Error Bool) : Except Error Bool :=
  match x with
  | .ok true => y
  | other => other

/-- Of two computations, the first one denies and the second one fails. -/
def DeniesAlone (x y : Except Error Bool) : Prop := x = .ok false ∧ ∃ e, y = .error e

/-- Two computations agree on yes; when one of them denies alone is known. -/
structure Mirrored (x y : Except Error Bool) (P Q : Prop) : Prop where
  true_iff : x = .ok true ↔ y = .ok true
  left : DeniesAlone x y ↔ P
  right : DeniesAlone y x ↔ Q

namespace Mirrored

variable {x y x' y' : Except Error Bool} {P Q P' Q' : Prop}

theorem symm (h : Mirrored x y P Q) : Mirrored y x Q P := ⟨h.true_iff.symm, h.right, h.left⟩

/-- Two computations that come to one answer. -/
theorem of_ok (b : Bool) (hP : ¬ P) (hQ : ¬ Q) : Mirrored (.ok b) (.ok b) P Q :=
  ⟨Iff.rfl, iff_of_false (fun ⟨_, _, he⟩ => nomatch he) hP,
    iff_of_false (fun ⟨_, _, he⟩ => nomatch he) hQ⟩

/-- Two computations that fail. -/
theorem of_error (e e' : Error) (hP : ¬ P) (hQ : ¬ Q) : Mirrored (.error e) (.error e') P Q :=
  ⟨iff_of_false nofun nofun, iff_of_false (fun h => nomatch h.1) hP,
    iff_of_false (fun h => nomatch h.1) hQ⟩

/-- One computation denies, the other one does not confirm. -/
theorem of_denied (hx : x = .ok false) (hy : y ≠ .ok true) (hP : (∃ e, y = .error e) ↔ P)
    (hQ : ¬ Q) : Mirrored x y P Q := by
  subst hx
  refine ⟨iff_of_false nofun hy, (and_iff_right rfl).trans hP, iff_of_false ?_ hQ⟩
  exact fun ⟨_, _, he⟩ => nomatch he

theorem followedBy (h : Mirrored x y P Q) (h' : Mirrored x' y' P' Q') :
    Mirrored (followedBy x x') (followedBy y y') (P ∨ x = .ok true ∧ P')
      (Q ∨ y = .ok true ∧ Q') := by
  by_cases hTrue : x = .ok true
  · have hTrue' := h.true_iff.1 hTrue
    have hP : ¬ P := fun hP => nomatch hTrue.symm.trans (h.left.2 hP).1
    have hQ : ¬ Q := fun hQ => nomatch hTrue'.symm.trans (h.right.2 hQ).1
    rw [or_iff_right hP, or_iff_right hQ, and_iff_right hTrue, and_iff_right hTrue', hTrue, hTrue']
    exact h'
  · have hTrue' : y ≠ .ok true := fun hy => hTrue (h.true_iff.2 hy)
    have hStops {z z' : Except Error Bool} (hz : z ≠ .ok true) :
        TypedCircuit.followedBy z z' = z := by
      unfold TypedCircuit.followedBy
      split
      · exact absurd rfl hz
      · rfl
    rw [hStops hTrue, hStops hTrue', or_iff_left fun h => hTrue h.1,
      or_iff_left fun h => hTrue' h.1]
    exact h

/-- Two computations give the same answers if neither denies alone. -/
theorem agree_iff (h : Mirrored x y P Q) : (∀ r, x = .ok r ↔ y = .ok r) ↔ ¬ P ∧ ¬ Q := by
  rw [← h.left, ← h.right]
  constructor
  · intro hAgree
    refine ⟨fun ⟨hx, e, hy⟩ => ?_, fun ⟨hy, e, hx⟩ => ?_⟩
    · exact nomatch ((hAgree false).1 hx).symm.trans hy
    · exact nomatch ((hAgree false).2 hy).symm.trans hx
  · rintro ⟨hLeft, hRight⟩ r
    cases r with
    | true => exact h.true_iff
    | false =>
        constructor
        · intro hx
          cases hy : y with
          | error e => exact absurd ⟨hx, e, hy⟩ hLeft
          | ok b =>
              cases b with
              | false => rfl
              | true => exact nomatch (h.true_iff.2 hy).symm.trans hx
        · intro hy
          cases hx : x with
          | error e => exact absurd ⟨hy, e, hx⟩ hRight
          | ok b =>
              cases b with
              | false => rfl
              | true => exact nomatch (h.true_iff.1 hx).symm.trans hy

/-- Reading two things and comparing what was read. -/
theorem of_reads {α : Type} [BEq α] [LawfulBEq α] (s t : Except Error α) (hP : ¬ P) (hQ : ¬ Q) :
    Mirrored (do let a ← s; let b ← t; return a == b) (do let b ← t; let a ← s; return b == a)
      P Q := by
  cases s with
  | error e => cases t <;> exact of_error _ _ hP hQ
  | ok a =>
      cases t with
      | error e => exact of_error _ _ hP hQ
      | ok b =>
          show Mirrored (.ok (a == b)) (.ok (b == a)) P Q
          rw [BEq.comm (a := b)]
          exact of_ok _ hP hQ

end Mirrored

namespace Value

/-! ## Uneven values -/

/-- The members of every record are in order. -/
inductive Ordered : Value → Prop where
  | signal (s : Signal) : Ordered (.signal s)
  | bit (b : Bit) : Ordered (.bit b)
  | array {items : List Value} (h : ∀ v ∈ items, Ordered v) : Ordered (.array items)
  | record {typeName? : Option String} {members : Entries Value} (hSorted : members.Sorted)
    (h : ∀ m ∈ members, Ordered m.2) : Ordered (.record typeName? members)
  | primitive (json : Json) : Ordered (.primitive json)
  | opaqueValue (identity : String) : Ordered (.opaqueValue identity)

mutual

/-- The walk through two values comes to a name of the left one that is missing on the right, where
the walk in the other order comes to a value that is missing. -/
inductive Uneven : Value → Value → Prop where
  | array {items others : List Value} (hLength : items.length = others.length)
    (h : UnevenItems items others) : Uneven (.array items) (.array others)
  | record {typeName? : Option String} {members others : List (String × Value)}
    (hLength : members.length = others.length) (h : UnevenMembers members others) :
    Uneven (.record typeName? members) (.record typeName? others)

/-- Of two sequences, the first items that are not the same are uneven. -/
inductive UnevenItems : List Value → List Value → Prop where
  | here {v w : Value} {items others : List Value} (h : Uneven v w) :
    UnevenItems (v :: items) (w :: others)
  | there {v w : Value} {items others : List Value} (hSame : v.Same w)
    (h : UnevenItems items others) : UnevenItems (v :: items) (w :: others)

/-- Of two records, the first members that are not the same are uneven, or the left name is missing
on the right, and going on from the right name fails. -/
inductive UnevenMembers : List (String × Value) → List (String × Value) → Prop where
  | here {name : String} {v w : Value} {members others : List (String × Value)} (h : Uneven v w) :
    UnevenMembers ((name, v) :: members) ((name, w) :: others)
  | there {name : String} {v w : Value} {members others : List (String × Value)} (hSame : v.Same w)
    (h : UnevenMembers members others) : UnevenMembers ((name, v) :: members) ((name, w) :: others)
  | names {name other : String} {v w : Value} {members others : List (String × Value)} {e : Error}
    (hLess : name < other)
    (hFails : sameMembers ((other, w) :: others) ((name, v) :: members) = .error e) :
    UnevenMembers ((name, v) :: members) ((other, w) :: others)

end

theorem uneven_array_iff {items others : List Value} :
    (Value.array items).Uneven (.array others) ↔
      items.length = others.length ∧ UnevenItems items others := by
  constructor
  · rintro ⟨hLength, h⟩
    exact ⟨hLength, h⟩
  · rintro ⟨hLength, h⟩
    exact .array hLength h

theorem uneven_record_iff {tag? tag'? : Option String} {members others : List (String × Value)} :
    (Value.record tag? members).Uneven (.record tag'? others) ↔
      (tag? = tag'? ∧ members.length = others.length) ∧ UnevenMembers members others := by
  constructor
  · rintro (_ | ⟨hLength, h⟩)
    exact ⟨⟨rfl, hLength⟩, h⟩
  · rintro ⟨⟨rfl, hLength⟩, h⟩
    exact .record hLength h

theorem unevenItems_cons_iff {v w : Value} {items others : List Value} :
    UnevenItems (v :: items) (w :: others) ↔ v.Uneven w ∨ v.Same w ∧ UnevenItems items others := by
  constructor
  · rintro (h | ⟨hSame, h⟩)
    · exact .inl h
    · exact .inr ⟨hSame, h⟩
  · rintro (h | ⟨hSame, h⟩)
    · exact .here h
    · exact .there hSame h

theorem unevenMembers_cons_iff {name : String} {v w : Value}
    {members others : List (String × Value)} :
    UnevenMembers ((name, v) :: members) ((name, w) :: others) ↔
      v.Uneven w ∨ v.Same w ∧ UnevenMembers members others := by
  constructor
  · rintro (h | ⟨hSame, h⟩ | ⟨hLess, _⟩)
    · exact .inl h
    · exact .inr ⟨hSame, h⟩
    · exact absurd hLess (String.lt_irrefl name)
  · rintro (h | ⟨hSame, h⟩)
    · exact .here h
    · exact .there hSame h

/-- Under different names it is the left name that is missing. -/
theorem unevenMembers_of_lt {name other : String} {v w : Value}
    {members others : List (String × Value)} (hLess : name < other) :
    (UnevenMembers ((name, v) :: members) ((other, w) :: others) ↔
      ∃ e, sameMembers ((other, w) :: others) ((name, v) :: members) = .error e) ∧
    ¬ UnevenMembers ((other, w) :: others) ((name, v) :: members) := by
  refine ⟨⟨?_, fun ⟨e, he⟩ => .names hLess he⟩, ?_⟩
  · rintro (_ | _ | ⟨_, hFails⟩)
    · exact absurd hLess (String.lt_irrefl _)
    · exact absurd hLess (String.lt_irrefl _)
    · exact ⟨_, hFails⟩
  · rintro (_ | _ | ⟨hMore, _⟩)
    · exact String.lt_irrefl _ hLess
    · exact String.lt_irrefl _ hLess
    · exact String.lt_irrefl _ (String.lt_trans hLess hMore)

/-! ## The walk -/

theorem sameItems_cons (v w : Value) (items others : List Value) :
    sameItems (v :: items) (w :: others) = followedBy (v.sameValue w) (sameItems items others) := by
  rw [sameItems]
  rfl

/-- A name that no member has is never looked up. -/
theorem sameMembers_cons_right {name : String} (w : Value) {members : List (String × Value)}
    (h : name ∉ Entries.names members) (others : Entries Value) :
    sameMembers members ((name, w) :: others) = sameMembers members others := by
  induction members with
  | nil => rfl
  | cons m members ih =>
      obtain ⟨own, v⟩ := m
      obtain ⟨hOwn, hRest⟩ := not_or.1 (List.mem_cons.not.1 h)
      rw [sameMembers, sameMembers, Entries.find?_cons_ne hOwn, ih hRest]

/-- Records whose first members have one name are compared member by member. -/
theorem sameMembers_cons {name : String} (v w : Value) {members : Entries Value}
    (hSorted : Entries.Sorted ((name, v) :: members)) (others : Entries Value) :
    sameMembers ((name, v) :: members) ((name, w) :: others) =
      followedBy (v.sameValue w) (sameMembers members others) := by
  rw [sameMembers, Entries.find?_cons_self]
  dsimp only
  rw [sameMembers_cons_right w hSorted.head_notMem]
  rfl

/-- A record that begins with an earlier name has one that the other record does not have. -/
theorem sameMembers_of_lt {name other : String} (v w : Value) {members others : Entries Value}
    (hLess : name < other) (hOthers : Entries.Sorted ((other, w) :: others)) :
    sameMembers ((name, v) :: members) ((other, w) :: others) = .ok false := by
  have hMissing : Entries.find? ((other, w) :: others) name = none := by
    refine Entries.find?_eq_none_iff.2 fun hMem => ?_
    rcases List.mem_cons.1 hMem with rfl | hRest
    · exact String.lt_irrefl _ hLess
    · exact String.lt_irrefl _ (String.lt_trans hLess (hOthers.head_lt hRest))
  rw [sameMembers, hMissing]

/-- Of two records that have the same members, the right one has all names of the left one. -/
theorem names_subset_of_sameMembers {members : List (String × Value)} {others : Entries Value}
    (h : sameMembers members others = .ok true) : Entries.names members ⊆ others.names := by
  induction members with
  | nil => exact List.nil_subset _
  | cons m members ih =>
      obtain ⟨name, v⟩ := m
      rw [sameMembers] at h
      cases hFind : others.find? name with
      | none =>
          rw [hFind] at h
          cases h
      | some w =>
          rw [hFind] at h
          dsimp only at h
          split at h
          · exact List.cons_subset.2 ⟨Entries.mem_names_of_find? hFind, ih h⟩
          · next hStops => exact absurd h hStops

/-- Records of different names are not found to be the same. -/
theorem sameMembers_ne_true {members others : Entries Value} (hMembers : members.Sorted)
    (hOthers : others.Sorted) (hLength : members.length = others.length)
    (hNames : members.names ≠ others.names) : sameMembers members others ≠ .ok true :=
  fun h => hNames (hMembers.names_eq hOthers hLength (names_subset_of_sameMembers h))

/-! ## Both orders -/

/-- What two values answer in both orders. -/
abbrev Mirror (v w : Value) : Prop :=
  Mirrored (v.sameValue w) (w.sameValue v) (v.Uneven w) (w.Uneven v)

theorem mirrored_items {items others : List Value} (hLength : items.length = others.length)
    (h : ∀ v ∈ items, ∀ w ∈ others, v.Mirror w) :
    Mirrored (sameItems items others) (sameItems others items) (UnevenItems items others)
      (UnevenItems others items) := by
  induction items generalizing others with
  | nil =>
      cases List.eq_nil_of_length_eq_zero hLength.symm
      exact .of_ok true nofun nofun
  | cons v items ih =>
      cases others with
      | nil => cases hLength
      | cons w others =>
          rw [sameItems_cons, sameItems_cons, unevenItems_cons_iff, unevenItems_cons_iff]
          refine (h v List.mem_cons_self w List.mem_cons_self).followedBy ?_
          refine ih (Nat.succ.inj hLength) fun v hv w hw => ?_
          exact h v (List.mem_cons_of_mem _ hv) w (List.mem_cons_of_mem _ hw)

/-- Records that begin with different names: one order denies at once. -/
theorem mirrored_of_lt {name other : String} (v w : Value) {members others : Entries Value}
    (hLess : name < other) (hMembers : Entries.Sorted ((name, v) :: members))
    (hOthers : Entries.Sorted ((other, w) :: others)) (hLength : members.length = others.length) :
    Mirrored (sameMembers ((name, v) :: members) ((other, w) :: others))
      (sameMembers ((other, w) :: others) ((name, v) :: members))
      (UnevenMembers ((name, v) :: members) ((other, w) :: others))
      (UnevenMembers ((other, w) :: others) ((name, v) :: members)) := by
  refine .of_denied (sameMembers_of_lt v w hLess hOthers) ?_ (unevenMembers_of_lt hLess).1.symm
    (unevenMembers_of_lt hLess).2
  refine sameMembers_ne_true hOthers hMembers (congrArg Nat.succ hLength.symm) fun hNames => ?_
  have hSame : other = name := (List.cons.inj hNames).1
  exact String.lt_irrefl _ (hSame ▸ hLess)

theorem mirrored_members {members others : Entries Value} (hMembers : members.Sorted)
    (hOthers : others.Sorted) (hLength : members.length = others.length)
    (h : ∀ m ∈ members, ∀ n ∈ others, m.2.Mirror n.2) :
    Mirrored (sameMembers members others) (sameMembers others members)
      (UnevenMembers members others) (UnevenMembers others members) := by
  induction members generalizing others with
  | nil =>
      cases List.eq_nil_of_length_eq_zero hLength.symm
      exact .of_ok true nofun nofun
  | cons m members ih =>
      obtain ⟨name, v⟩ := m
      cases others with
      | nil => cases hLength
      | cons n others =>
          obtain ⟨other, w⟩ := n
          have hRest := Nat.succ.inj hLength
          -- Names ascend, so of two different first names the lesser one is missing on the other
          -- side, and nothing after it is looked at.
          by_cases hName : name = other
          · subst hName
            rw [sameMembers_cons v w hMembers, sameMembers_cons w v hOthers, unevenMembers_cons_iff,
              unevenMembers_cons_iff]
            refine (h _ List.mem_cons_self _ List.mem_cons_self).followedBy ?_
            refine ih hMembers.tail hOthers.tail hRest fun m hm n hn => ?_
            exact h m (List.mem_cons_of_mem _ hm) n (List.mem_cons_of_mem _ hn)
          · by_cases hLess : name < other
            · exact mirrored_of_lt v w hLess hMembers hOthers hRest
            · have hMore : other < name :=
                Std.lt_of_le_of_ne (String.not_lt.1 hLess) (Ne.symm hName)
              exact (mirrored_of_lt w v hMore hOthers hMembers hRest.symm).symm

theorem mirrored_array {items others : List Value} (h : ∀ v ∈ items, ∀ w ∈ others, v.Mirror w) :
    (Value.array items).Mirror (.array others) := by
  rw [Mirror, sameValue, sameValue, uneven_array_iff, uneven_array_iff]
  by_cases hLength : items.length = others.length
  · rw [if_neg (not_not.2 hLength), if_neg (not_not.2 hLength.symm), and_iff_right hLength,
      and_iff_right hLength.symm]
    exact mirrored_items hLength h
  · rw [if_pos hLength, if_pos (Ne.symm hLength)]
    exact .of_ok false (fun hUneven => hLength hUneven.1) fun hUneven => hLength hUneven.1.symm

theorem mirrored_record {tag? tag'? : Option String} {members others : Entries Value}
    (hMembers : members.Sorted) (hOthers : others.Sorted)
    (h : ∀ m ∈ members, ∀ n ∈ others, m.2.Mirror n.2) :
    (Value.record tag? members).Mirror (.record tag'? others) := by
  rw [Mirror, sameValue, sameValue, uneven_record_iff, uneven_record_iff]
  by_cases hSame : tag? = tag'? ∧ members.length = others.length
  · have hOther : tag'? = tag? ∧ others.length = members.length :=
      ⟨hSame.1.symm, hSame.2.symm⟩
    rw [if_neg (not_or.2 ⟨not_not.2 hSame.1, not_not.2 hSame.2⟩),
      if_neg (not_or.2 ⟨not_not.2 hOther.1, not_not.2 hOther.2⟩), and_iff_right hSame,
      and_iff_right hOther]
    exact mirrored_members hMembers hOthers hSame.2 h
  · have hOne : tag? ≠ tag'? ∨ members.length ≠ others.length := not_and_or.1 hSame
    have hOther : tag'? ≠ tag? ∨ others.length ≠ members.length := hOne.imp Ne.symm Ne.symm
    rw [if_pos hOne, if_pos hOther]
    refine .of_ok false (fun hUneven => hSame hUneven.1) fun hUneven => hSame ?_
    exact ⟨hUneven.1.1.symm, hUneven.1.2.symm⟩

/-- Of any two values, the two orders agree on yes, and one of them denies alone just if the values
are uneven. -/
theorem mirrored {v w : Value} (hv : v.Ordered) (hw : w.Ordered) : v.Mirror w := by
  induction hv generalizing w with
  | signal s =>
      cases hw with
      | signal t => exact .of_reads _ _ nofun nofun
      | bit | array | record | primitive | opaqueValue => exact .of_ok false nofun nofun
  | bit b =>
      cases hw with
      | bit c => exact .of_reads _ _ nofun nofun
      | signal | array | record | primitive | opaqueValue => exact .of_ok false nofun nofun
  | array _ ih =>
      cases hw with
      | array hOthers => exact mirrored_array fun v hv w hw => ih v hv (hOthers w hw)
      | signal | bit | record | primitive | opaqueValue => exact .of_ok false nofun nofun
  | record hSorted _ ih =>
      cases hw with
      | record hSorted' hOthers =>
          exact mirrored_record hSorted hSorted' fun m hm n hn => ih m hm (hOthers n hn)
      | signal | bit | array | primitive | opaqueValue => exact .of_ok false nofun nofun
  | primitive json =>
      cases hw with
      | primitive other =>
          show Mirrored (.ok (json == other)) (.ok (other == json)) _ _
          rw [BEq.comm (a := other)]
          exact .of_ok _ nofun nofun
      | signal | bit | array | record | opaqueValue => exact .of_ok false nofun nofun
  | opaqueValue identity =>
      cases hw with
      | opaqueValue other =>
          show Mirrored (.ok (identity == other)) (.ok (other == identity)) _ _
          rw [BEq.comm (a := other)]
          exact .of_ok _ nofun nofun
      | signal | bit | array | record | primitive => exact .of_ok false nofun nofun

theorem Known.ordered {v : Value} (h : v.Known) : v.Ordered := by
  induction h with
  | signal => exact .signal _
  | bit => exact .bit _
  | array _ ih => exact .array ih
  | record hSorted _ ih => exact .record hSorted ih
  | primitive json => exact .primitive json
  | opaqueValue identity => exact .opaqueValue identity

/-- Where nothing is missing, nothing is uneven. -/
theorem Known.not_uneven {v w : Value} (hv : v.Known) (hw : w.Known) : ¬ v.Uneven w := by
  intro hUneven
  obtain ⟨-, e, he⟩ := (mirrored hv.ordered hw.ordered).left.2 hUneven
  obtain ⟨b, hb, -⟩ := sameValue_decides hw hv
  cases he.symm.trans hb

/-- Records of different names are different, if what they have under common names can be
compared. -/
theorem sameValue_of_names_ne {tag? tag'? : Option String} {members others : Entries Value}
    (hMembers : members.Sorted) (hOthers : others.Sorted) (hNames : members.names ≠ others.names) :
    ¬ (Value.record tag? members).Same (.record tag'? others) ∧
    ((∀ m ∈ members, ∀ w, others.find? m.1 = some w → m.2.Comparable w) →
      (Value.record tag? members).sameValue (.record tag'? others) = .ok false) := by
  rw [Same, sameValue]
  by_cases hDiffers : tag? ≠ tag'? ∨ members.length ≠ others.length
  · rw [if_pos hDiffers]
    exact ⟨fun h => Bool.false_ne_true (Except.ok.inj h), fun _ => rfl⟩
  · rw [if_neg hDiffers]
    have hLength : members.length = others.length := not_not.1 (not_or.1 hDiffers).2
    have hNot := sameMembers_ne_true hMembers hOthers hLength hNames
    refine ⟨hNot, fun hComparable => ?_⟩
    obtain ⟨b, hb, -⟩ := sameMembers_decides hComparable
    cases b with
    | false => exact hb
    | true => exact absurd hb hNot

/--
Comparing two values gives the same answers in both orders if and only if the values are not uneven:
unless the walk comes to two records where one side misses a name and the other one first has to
read a value that is not there. It is only a denial that can be lost, since both orders always agree
on whether the values are the same. Records of different names are never the same, and they are
found to be different in every order in which what they have under common names can be compared.
-/
theorem sameValue_symmetric_iff {v w : Value} (hv : v.Ordered) (hw : w.Ordered) :
    ((∀ r, v.sameValue w = .ok r ↔ w.sameValue v = .ok r) ↔ ¬ v.Uneven w ∧ ¬ w.Uneven v) ∧
    (v.Same w ↔ w.Same v) ∧
    ∀ tag? tag'? members others, v = .record tag? members → w = .record tag'? others →
      Entries.names members ≠ Entries.names others → ¬ v.Same w ∧
        ((∀ m ∈ members, ∀ n, Entries.find? others m.1 = some n → m.2.Comparable n) →
          v.sameValue w = .ok false) := by
  have hMirror := mirrored hv hw
  refine ⟨hMirror.agree_iff, hMirror.true_iff, ?_⟩
  rintro tag? tag'? members others rfl rfl hNames
  cases hv with
  | record hMembers _ =>
      cases hw with
      | record hOthers _ => exact sameValue_of_names_ne hMembers hOthers hNames

/-- A record of `a` and `b`. -/
private def former (s : Signal) : Value := .record none [("a", .ofElement 5), ("b", .signal s)]

/-- A record of `b` and `c`. -/
private def latter (s : Signal) : Value := .record none [("b", .signal s), ("c", .ofElement 1)]

/-- A variable of a pass that has no values. -/
private def missing : Signal := .variable ⟨0, none⟩

private theorem ordered_former (s : Signal) : (former s).Ordered := by
  have hSorted : ["a", "b"].Pairwise (· < ·) := by decide
  refine .record hSorted (List.forall_mem_cons.2 ⟨.signal _, List.forall_mem_singleton.2 ?_⟩)
  exact .signal s

private theorem ordered_latter (s : Signal) : (latter s).Ordered := by
  have hSorted : ["b", "c"].Pairwise (· < ·) := by decide
  refine .record hSorted (List.forall_mem_cons.2 ⟨.signal s, List.forall_mem_singleton.2 ?_⟩)
  exact .signal _

/-- Two records that have a name of their own each are told apart in both orders if what they have
under their common name has values. If it has none, they are told apart in one order only. -/
theorem sameValue_symmetric_iff_former :
    (∀ r, (former .one).sameValue (latter .zero) = .ok r ↔
      (latter .zero).sameValue (former .one) = .ok r) ∧
    (former missing).Uneven (latter missing) ∧
    ¬ ∀ r, (former missing).sameValue (latter missing) = .ok r ↔
      (latter missing).sameValue (former missing) = .ok r := by
  have hUneven : (former missing).Uneven (latter missing) :=
    .record rfl (.names (e := .valueUnavailable) (by decide) rfl)
  refine ⟨?_, hUneven, fun h => ?_⟩
  · refine (sameValue_symmetric_iff (ordered_former .one) (ordered_latter .zero)).1.2 ⟨?_, ?_⟩
    · intro hBoth
      obtain ⟨e, hFails⟩ := (unevenMembers_of_lt (by decide)).1.1 (uneven_record_iff.1 hBoth).2
      exact nomatch hFails
    · intro hBoth
      exact (unevenMembers_of_lt (by decide)).2 (uneven_record_iff.1 hBoth).2
  · exact ((sameValue_symmetric_iff (ordered_former _) (ordered_latter _)).1.1 h).1 hUneven

/-- Two records, of which one order tells that they are different, and the other one fails because
it reads a value that is missing before it comes to the name that is. -/
theorem sameValue_not_symmetric :
    ¬ ∀ v w : Value, v.Ordered → w.Ordered →
      ∀ r, v.sameValue w = .ok r ↔ w.sameValue v = .ok r := by
  intro h
  have hDenied : (former missing).sameValue (latter missing) = .ok false := rfl
  have hFails : (latter missing).sameValue (former missing) = .error .valueUnavailable := rfl
  have hBoth := h (former missing) (latter missing) (ordered_former _) (ordered_latter _) false
  exact nomatch hFails.symm.trans (hBoth.1 hDenied)

end Value

end TypedCircuit
