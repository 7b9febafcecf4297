import TypedCircuit.Proofs.Codec.Law
import TypedCircuit.Proofs.Codec.Traversals

/-!
# Laws of sequences

A sequence hands its elements and auxiliary entries out to its parts, each share right
behind the one before. Here the law of a sequence is put together from the laws of its
parts, once for all types that visit parts in order: the shares of a flattened value are
what its items were flattened to, so every part meets exactly what it produced.

Copies of one part are written down differently, but every operation on them is that of the
sequence of the copies, so nothing about them is proved twice.

## Main results

* `Part.lawful_sequence` — a sequence of lawful parts is lawful.
* `Part.replicated_flatten`, `Part.replicated_check`, `Part.replicated_rebuild` and the like —
  copies of a part do what their sequence does.
* `Part.lawful_replicated` — so are copies of one lawful part.
-/

namespace TypedCircuit

namespace Width

theorem add_fields (a b : Width) : (a + b).fields = a.fields + b.fields := rfl

theorem add_aux (a b : Width) : (a + b).aux = a.aux + b.aux := rfl

theorem ext {a b : Width} (hFields : a.fields = b.fields) (hAux : a.aux = b.aux) : a = b := by
  cases a; cases b; cases hFields; cases hAux; rfl

theorem foldl_eq (widths : List Width) (total : Width) :
    widths.foldl (· + ·) total = total + sum widths := by
  induction widths generalizing total with
  | nil => exact ext (Nat.add_zero _).symm (Nat.add_zero _).symm
  | cons w rest ih =>
      show rest.foldl (· + ·) (total + w) = total + rest.foldl (· + ·) (zero + w)
      rw [ih, ih (zero + w)]
      apply ext
      · simp only [add_fields, zero]; omega
      · simp only [add_aux, zero]; omega

theorem sum_cons (w : Width) (widths : List Width) : sum (w :: widths) = w + sum widths := by
  rw [sum, List.foldl_cons, foldl_eq]
  apply ext
  · simp only [add_fields, zero]; omega
  · simp only [add_aux, zero]; omega

theorem sum_replicate (count : Nat) (w : Width) :
    sum (List.replicate count w) = times count w := by
  induction count with
  | zero => exact ext (Nat.zero_mul _).symm (Nat.zero_mul _).symm
  | succ n ih =>
      rw [List.replicate_succ, sum_cons, ih]
      apply ext
      · show w.fields + n * w.fields = (n + 1) * w.fields
        rw [Nat.succ_mul, Nat.add_comm]
      · show w.aux + n * w.aux = (n + 1) * w.aux
        rw [Nat.succ_mul, Nat.add_comm]

end Width

/-- The first share is a front of the right lengths; what follows it is left to the rest. -/
theorem shares_append {w : Width} {front : List Signal} {auxFront : List Value}
    (hFields : front.length = w.fields) (hAux : auxFront.length = w.aux) (widths : List Width)
    (fields : List Signal) (aux : List Value) :
    shares (w :: widths) (front ++ fields) (auxFront ++ aux) =
      (front, auxFront) :: shares widths fields aux := by
  rw [shares_cons, ← hFields, ← hAux, List.take_left, List.take_left, List.drop_left,
    List.drop_left]

namespace Part

/-! ## One part after the other -/

theorem flattenAll_cons {p : Part} {parts : List Part} {v : Value} {items : List Value}
    {fields : List Signal} :
    flattenAll (p :: parts) (v :: items) = .ok fields ↔
      ∃ front rest, p.flatten v = .ok front ∧ flattenAll parts items = .ok rest ∧
        fields = front ++ rest := by
  unfold flattenAll
  rw [List.zip_cons_cons, List.mapM_cons]
  constructor
  · intro h
    obtain ⟨chunks, hChunks, h⟩ := bind_eq_ok.1 h
    obtain ⟨front, hFront, hChunks⟩ := bind_eq_ok.1 hChunks
    obtain ⟨rest, hRest, hChunks⟩ := bind_eq_ok.1 hChunks
    cases hChunks
    cases h
    refine ⟨front, rest.flatten, hFront, ?_, List.flatten_cons⟩
    rw [hRest]
    rfl
  · rintro ⟨front, rest, hFront, hRest, rfl⟩
    obtain ⟨chunks, hChunks, h⟩ := bind_eq_ok.1 hRest
    cases h
    refine bind_eq_ok.2 ⟨front :: chunks, bind_eq_ok.2 ⟨front, hFront, ?_⟩, rfl⟩
    exact bind_eq_ok.2 ⟨chunks, hChunks, rfl⟩

theorem auxiliaryAll_cons (p : Part) (parts : List Part) (v : Value) (items : List Value) :
    auxiliaryAll (p :: parts) (v :: items) = p.auxiliary v ++ auxiliaryAll parts items := by
  rw [auxiliaryAll, List.zip_cons_cons, List.flatMap_cons]
  rfl

theorem rebuildAll_cons (p : Part) (parts : List Part) (share : List Signal × List Value)
    (shares : List (List Signal × List Value)) :
    rebuildAll (p :: parts) (share :: shares) =
      (p.rebuild share.1 share.2 >>= fun v =>
        rebuildAll parts shares >>= fun items => pure (v :: items)) := by
  unfold rebuildAll
  rw [List.zip_cons_cons, List.mapM_cons]

theorem rebuildAll_cons_ok {p : Part} {parts : List Part} {share : List Signal × List Value}
    {shares : List (List Signal × List Value)} {v : Value} {items : List Value}
    (hHead : p.rebuild share.1 share.2 = .ok v) (hRest : rebuildAll parts shares = .ok items) :
    rebuildAll (p :: parts) (share :: shares) = .ok (v :: items) := by
  rw [rebuildAll_cons, hHead, hRest]
  rfl

theorem checkAll_cons (p : Part) (parts : List Part) (v : Value) (items : List Value) :
    checkAll (p :: parts) (v :: items) = (p.check v >>= fun _ => checkAll parts items) := rfl

/-! ## Laws one after the other -/

private theorem exists_eq_append {α : Type} (xs : List α) (k : Nat) (h : k ≤ xs.length) :
    ∃ front rest, xs = front ++ rest ∧ front.length = k :=
  ⟨xs.take k, xs.drop k, (List.take_append_drop k xs).symm, List.length_take_of_le h⟩

section Parts

variable {parts : List Part} {laws : List Part.Law} {items : List Value}
  {fields : List Signal}

theorem widths_eq (h : List.Forall₂ Part.Lawful parts laws) :
    widths parts = .ok (laws.map Law.width) := by
  rw [widths, mapM_eq_ok]
  induction h with
  | nil => exact .nil
  | cons hHead _ ih => exact .cons hHead.width_eq ih

theorem rules_flatten_length (h : List.Forall₂ Part.Lawful parts laws) :
    (laws.flatMap Law.rules).length = (Width.sum (laws.map Law.width)).fields := by
  induction h with
  | nil => rfl
  | cons hHead _ ih =>
      rw [List.flatMap_cons, List.length_append, ih, hHead.rules_length, List.map_cons,
        Width.sum_cons, Width.add_fields]

theorem length_of_flattenAll (h : List.Forall₂ Part.Lawful parts laws)
    (hItems : items.length = parts.length) (hFlat : flattenAll parts items = .ok fields) :
    fields.length = (Width.sum (laws.map Law.width)).fields ∧
      (auxiliaryAll parts items).length = (Width.sum (laws.map Law.width)).aux := by
  induction h generalizing items fields with
  | nil => cases hFlat; exact ⟨rfl, rfl⟩
  | cons hHead _ ih =>
      cases items with
      | nil => cases hItems
      | cons v items =>
          obtain ⟨front, rest, hFront, hRest, rfl⟩ := flattenAll_cons.1 hFlat
          obtain ⟨hFields, hAux⟩ := ih (Nat.succ.inj hItems) hRest
          rw [List.map_cons, Width.sum_cons, auxiliaryAll_cons]
          constructor
          · rw [List.length_append, hHead.fields_length hFront, hFields, Width.add_fields]
          · rw [List.length_append, hHead.aux_length hFront, hAux, Width.add_aux]

theorem hostData_of_flattenAll (h : List.Forall₂ Part.Lawful parts laws)
    (hItems : items.length = parts.length) (hFlat : flattenAll parts items = .ok fields) :
    ∀ a ∈ auxiliaryAll parts items, a.HostData := by
  induction h generalizing items fields with
  | nil => exact nofun
  | cons hHead _ ih =>
      cases items with
      | nil => cases hItems
      | cons v items =>
          obtain ⟨front, rest, hFront, hRest, rfl⟩ := flattenAll_cons.1 hFlat
          intro a ha
          rw [auxiliaryAll_cons] at ha
          rcases List.mem_append.1 ha with ha | ha
          · exact hHead.aux_hostData hFront a ha
          · exact ih (Nat.succ.inj hItems) hRest a ha

theorem checkAll_eq (h : List.Forall₂ Part.Lawful parts laws)
    (hItems : items.length = parts.length) (hFlat : flattenAll parts items = .ok fields) :
    checkAll parts items = assertRules (laws.flatMap Law.rules) fields := by
  induction h generalizing items fields with
  | nil => rfl
  | cons hHead _ ih =>
      cases items with
      | nil => cases hItems
      | cons v items =>
          obtain ⟨front, rest, hFront, hRest, rfl⟩ := flattenAll_cons.1 hFlat
          have hLength := hHead.rules_length.trans (hHead.fields_length hFront).symm
          rw [checkAll_cons, List.flatMap_cons, assertRules_append hLength,
            hHead.check_eq hFront, ih (Nat.succ.inj hItems) hRest]

/-- What items were flattened to comes back as their canonical forms. -/
theorem rebuildAll_flattenAll (h : List.Forall₂ Part.Lawful parts laws)
    (hItems : items.length = parts.length) (hFlat : flattenAll parts items = .ok fields) :
    rebuildAll parts (shares (laws.map Law.width) fields (auxiliaryAll parts items)) =
      .ok (List.zipWith Law.canonical laws items) := by
  induction h generalizing items fields with
  | nil => rfl
  | cons hHead _ ih =>
      cases items with
      | nil => cases hItems
      | cons v items =>
          obtain ⟨front, rest, hFront, hRest, rfl⟩ := flattenAll_cons.1 hFlat
          rw [List.map_cons, auxiliaryAll_cons,
            shares_append (hHead.fields_length hFront) (hHead.aux_length hFront)]
          exact rebuildAll_cons_ok (hHead.rebuild_flatten hFront) (ih (Nat.succ.inj hItems) hRest)

/-- Shares of right counts come back as items that flatten to them. -/
theorem rebuildAll_ok (h : List.Forall₂ Part.Lawful parts laws) {aux : List Value}
    (hFields : fields.length = (Width.sum (laws.map Law.width)).fields)
    (hAux : aux.length = (Width.sum (laws.map Law.width)).aux) (hHost : ∀ a ∈ aux, a.HostData) :
    ∃ items, rebuildAll parts (shares (laws.map Law.width) fields aux) = .ok items ∧
      flattenAll parts items = .ok fields ∧ auxiliaryAll parts items = aux ∧
        List.Forall₂ Law.normal laws items := by
  induction h generalizing fields aux with
  | nil =>
      obtain rfl := List.length_eq_zero_iff.1 hFields
      obtain rfl := List.length_eq_zero_iff.1 hAux
      exact ⟨[], rfl, rfl, rfl, .nil⟩
  | @cons p law parts laws hHead _ ih =>
      rw [List.map_cons, Width.sum_cons, Width.add_fields] at hFields
      rw [List.map_cons, Width.sum_cons, Width.add_aux] at hAux
      obtain ⟨front, rest, rfl, hFront⟩ := exists_eq_append fields law.width.fields (by omega)
      obtain ⟨auxFront, auxRest, rfl, hAuxFront⟩ := exists_eq_append aux law.width.aux (by omega)
      rw [List.length_append] at hFields hAux
      obtain ⟨v, hBack, hFlat, hSame, hv⟩ := hHead.rebuild_ok hFront hAuxFront
        fun a ha => hHost a (List.mem_append_left _ ha)
      have hRest : rest.length = (Width.sum (laws.map Law.width)).fields := by omega
      have hAuxRest : auxRest.length = (Width.sum (laws.map Law.width)).aux := by omega
      obtain ⟨items, hBackAll, hFlatAll, hSameAll, hItems⟩ := ih hRest hAuxRest
        fun a ha => hHost a (List.mem_append_right _ ha)
      refine ⟨v :: items, ?_, ?_, ?_, .cons hv hItems⟩
      · rw [List.map_cons, shares_append hFront hAuxFront]
        exact rebuildAll_cons_ok hBack hBackAll
      · exact flattenAll_cons.2 ⟨front, rest, hFlat, hFlatAll, rfl⟩
      · rw [auxiliaryAll_cons, hSame, hSameAll]

end Parts

/-! ## Sequences -/

/-- The law of a sequence. -/
def Law.sequence (laws : List Law) : Law where
  width := Width.sum (laws.map Law.width)
  rules := laws.flatMap Law.rules
  canonical v := .array (List.zipWith Law.canonical laws (v.items?.getD []))
  normal v := ∃ items, v = .array items ∧ List.Forall₂ Law.normal laws items

/-- A sequence of lawful parts is lawful. -/
theorem lawful_sequence {parts : List Part} {laws : List Law}
    (h : List.Forall₂ Part.Lawful parts laws) (typeName : String) :
    (sequence typeName parts).Lawful (.sequence laws) := by
  -- What flattens is an array with an item for each part.
  have hOpen : ∀ {v fields}, (sequence typeName parts).flatten v = .ok fields →
      ∃ items, v = .array items ∧ items.length = parts.length ∧
        flattenAll parts items = .ok fields := by
    intro v fields hFlat
    obtain ⟨items, hItems, hAll⟩ := bind_eq_ok.1 hFlat
    obtain ⟨hArray, hLength⟩ := expectItems_eq_ok.1 hItems
    exact ⟨items, hArray, hLength, hAll⟩
  have hRebuild : ∀ fields aux, (sequence typeName parts).rebuild fields aux =
      (rebuildAll parts (shares (laws.map Law.width) fields aux)).map .array := by
    intro fields aux
    show (widths parts >>= _) = _
    rw [widths_eq h]
    rfl
  refine ⟨?_, rules_flatten_length h, ?_, ?_, ?_, ?_, ?_, ?_⟩
  · show (widths parts).map Width.sum = _
    rw [widths_eq h]
    rfl
  · intro v fields hFlat
    obtain ⟨items, rfl, hItems, hFlat⟩ := hOpen hFlat
    exact (length_of_flattenAll h hItems hFlat).1
  · intro v fields hFlat
    obtain ⟨items, rfl, hItems, hFlat⟩ := hOpen hFlat
    exact (length_of_flattenAll h hItems hFlat).2
  · intro v fields hFlat
    obtain ⟨items, rfl, hItems, hFlat⟩ := hOpen hFlat
    exact hostData_of_flattenAll h hItems hFlat
  · intro v fields hFlat
    obtain ⟨items, rfl, hItems, hFlat⟩ := hOpen hFlat
    show (liftM (expectItems typeName parts.length (.array items)) >>= checkAll parts) = _
    rw [expectItems_eq_ok.2 ⟨rfl, hItems⟩]
    exact checkAll_eq h hItems hFlat
  · intro v fields hFlat
    obtain ⟨items, rfl, hItems, hFlat⟩ := hOpen hFlat
    rw [hRebuild]
    exact congrArg (Except.map Value.array) (rebuildAll_flattenAll h hItems hFlat)
  · intro fields aux hFields hAux hHost
    obtain ⟨items, hBack, hFlat, hSame, hNormal⟩ := rebuildAll_ok h hFields hAux hHost
    have hItems : items.length = parts.length :=
      hNormal.length_eq.symm.trans h.length_eq.symm
    refine ⟨.array items, ?_, ?_, hSame, items, rfl, hNormal⟩
    · rw [hRebuild, hBack]
      rfl
    · show (expectItems typeName parts.length (.array items) >>= flattenAll parts) = _
      rw [expectItems_eq_ok.2 ⟨rfl, hItems⟩]
      exact hFlat

/-! ## Copies -/

section

variable {p : Part} {width : Width} (h : p.width () = .ok width) (typeName : String) (count : Nat)

include h

theorem widths_replicate :
    widths (List.replicate count p) = .ok (List.replicate count width) := by
  refine mapM_eq_ok.2 (forall₂_replicate ?_ count)
  exact h

/-- Copies of a part that has a width are as wide as the sequence of the copies. -/
theorem replicated_width : (replicated typeName p count).width () =
    (sequence typeName (List.replicate count p)).width () := by
  show (p.width ()).map _ = (widths (List.replicate count p)).map _
  rw [widths_replicate h, h]
  exact congrArg Except.ok (Width.sum_replicate count width).symm

/-- Copies of a part that has a width are rebuilt as the sequence of the copies is. -/
theorem replicated_rebuild (fields : List Signal) (aux : List Value) :
    (replicated typeName p count).rebuild fields aux =
      (sequence typeName (List.replicate count p)).rebuild fields aux := by
  rw [replicated_rebuild_eq]
  show (p.width () >>= _) = (widths (List.replicate count p) >>= _)
  rw [widths_replicate h, h]
  rfl

end

/-- Copies of a lawful part are lawful: they are the sequence of the copies. -/
theorem lawful_replicated {p : Part} {law : Law} (h : p.Lawful law) (typeName : String)
    (count : Nat) :
    (replicated typeName p count).Lawful (.sequence (List.replicate count law)) := by
  have hAll : List.Forall₂ Part.Lawful (List.replicate count p) (List.replicate count law) :=
    forall₂_replicate h count
  refine (lawful_sequence hAll typeName).of_agree ?_ ?_ ?_ ?_
  · exact replicated_width h.width_eq typeName count
  · intro v fields
    rw [replicated_flatten]
  · intro v fields hFlat
    obtain ⟨items, hItems, -⟩ := bind_eq_ok.1 hFlat
    obtain ⟨rfl, hLength⟩ := expectItems_eq_ok.1 hItems
    rw [List.length_replicate] at hLength
    subst hLength
    exact ⟨(auxiliaryAll_replicate p items).symm, replicated_check p typeName items.length _⟩
  · exact fun fields aux _ _ => replicated_rebuild h.width_eq typeName count fields aux

end Part

end TypedCircuit
