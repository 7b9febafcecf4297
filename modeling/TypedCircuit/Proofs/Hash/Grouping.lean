import TypedCircuit.Proofs.Hash.Collisions

/-!
# Groups of small values

Packing fills groups in order and closes one only if the next value does not fit. What the
elements of the groups are is positional arithmetic: a value counts by the bits of the values that
come after it in its group, so the first value is the quotient by those bits, and the rest of the
group is the rest.

Filling groups greedily makes as few of them as can be. An open group that holds more can cost one
group more in the end, but never more than one: at the first value for which the fuller group is
closed and the other is not, the fuller one starts anew, and from there on it is ahead.

## Main results

* `HashInput.groupsFrom_length_le` — a fuller open group costs at most one group.
* `HashInput.groups_minimal` — no way to cut a list into groups makes fewer of them.
* `HashInput.splitUp_written` — the values of a group are read back from its number.
* `HashInput.pack_groups` — packing loses nothing and makes as few elements as can be.
-/

namespace TypedCircuit

namespace HashInput

section

variable {α β : Type} (bits : α → Nat)

/-! ## Cutting a list into groups -/

/-- How many bits the entries of a list have together. -/
def totalBits : List α → Nat
  | [] => 0
  | entry :: rest => bits entry + totalBits rest

/-- The groups that entries are cut into when they are added to an open group. -/
def groupsFrom (current : List α) : List α → List (List α)
  | [] => if 0 < totalBits bits current then [current] else []
  | entry :: rest =>
    if 0 < totalBits bits current ∧ packedCapacity < totalBits bits current + bits entry then
      current :: groupsFrom [entry] rest
    else groupsFrom (current ++ [entry]) rest

/-- The groups that entries are cut into. -/
def groups (entries : List α) : List (List α) := groupsFrom bits [] entries

variable {bits} {current current' entries : List α}

@[simp] theorem totalBits_nil : totalBits bits [] = 0 := rfl

@[simp] theorem totalBits_cons (entry : α) (rest : List α) :
    totalBits bits (entry :: rest) = bits entry + totalBits bits rest := rfl

@[simp] theorem totalBits_append (first rest : List α) :
    totalBits bits (first ++ rest) = totalBits bits first + totalBits bits rest := by
  induction first with
  | nil => exact (Nat.zero_add _).symm
  | cons entry first ih => rw [List.cons_append, totalBits_cons, totalBits_cons, ih, Nat.add_assoc]

theorem totalBits_map (f : β → α) (entries : List β) :
    totalBits bits (entries.map f) = totalBits (fun b => bits (f b)) entries := by
  induction entries with
  | nil => rfl
  | cons entry rest ih => exact congrArg (bits (f entry) + ·) ih

theorem totalBits_pos (h : ∀ entry ∈ current, 0 < bits entry) (hSome : current ≠ []) :
    0 < totalBits bits current := by
  cases current with
  | nil => exact absurd rfl hSome
  | cons entry rest =>
      have hHead : 0 < bits entry := h entry List.mem_cons_self
      rw [totalBits_cons]
      omega

theorem ne_nil_of_totalBits_pos (h : 0 < totalBits bits current) : current ≠ [] := by
  rintro rfl
  exact Nat.lt_irrefl 0 h

/-- The groups are cut out of the list. -/
theorem groupsFrom_flatten (hCurrent : ∀ entry ∈ current, 0 < bits entry)
    (hEntries : ∀ entry ∈ entries, 0 < bits entry) :
    (groupsFrom bits current entries).flatten = current ++ entries := by
  induction entries generalizing current with
  | nil =>
      unfold groupsFrom
      by_cases hSome : current = []
      · subst hSome
        rfl
      · rw [if_pos (totalBits_pos hCurrent hSome)]
        rfl
  | cons entry rest ih =>
      obtain ⟨hHead, hRest⟩ := List.forall_mem_cons.1 hEntries
      unfold groupsFrom
      split
      · rw [List.flatten_cons, ih (List.forall_mem_singleton.2 hHead) hRest]
        rfl
      · rw [ih (List.forall_mem_append.2 ⟨hCurrent, List.forall_mem_singleton.2 hHead⟩) hRest,
          List.append_assoc]
        rfl

/-- No group is empty or holds more than the capacity. -/
theorem groupsFrom_fits (hCurrent : totalBits bits current ≤ packedCapacity)
    (hEntries : ∀ entry ∈ entries, bits entry ≤ packedCapacity) :
    ∀ group ∈ groupsFrom bits current entries,
      group ≠ [] ∧ totalBits bits group ≤ packedCapacity := by
  induction entries generalizing current with
  | nil =>
      intro group hGroup
      unfold groupsFrom at hGroup
      split at hGroup
      · next hHeld =>
        cases List.mem_singleton.1 hGroup
        exact ⟨ne_nil_of_totalBits_pos hHeld, hCurrent⟩
      · cases hGroup
  | cons entry rest ih =>
      obtain ⟨hHead, hRest⟩ := List.forall_mem_cons.1 hEntries
      unfold groupsFrom
      split
      · next hClosed =>
        refine List.forall_mem_cons.2 ⟨⟨ne_nil_of_totalBits_pos hClosed.1, hCurrent⟩, ih ?_ hRest⟩
        simpa using hHead
      · next hOpen =>
        refine ih ?_ hRest
        simp only [totalBits_append, totalBits_cons, totalBits_nil]
        omega

/-- Where groups are closed depends on the bits only. -/
theorem groupsFrom_map (f : β → α) (current entries : List β) :
    groupsFrom bits (current.map f) (entries.map f) =
      (groupsFrom (fun b => bits (f b)) current entries).map (List.map f) := by
  induction entries generalizing current with
  | nil =>
      simp only [List.map_nil, groupsFrom, totalBits_map]
      split <;> rfl
  | cons entry rest ih =>
      simp only [List.map_cons, groupsFrom, totalBits_map]
      split
      · exact congrArg (current.map f :: ·) (ih [entry])
      · rw [← ih, List.map_append]
        rfl

/-! ## As few groups as can be -/

/-- A fuller open group costs at most one group, and never saves one. -/
theorem groupsFrom_length_le (hLess : totalBits bits current ≤ totalBits bits current')
    (entries : List α) :
    (groupsFrom bits current entries).length ≤ (groupsFrom bits current' entries).length ∧
      (groupsFrom bits current' entries).length ≤ (groupsFrom bits current entries).length + 1 := by
  induction entries generalizing current current' with
  | nil =>
      unfold groupsFrom
      split <;> split <;> simp
      omega
  | cons entry rest ih =>
      unfold groupsFrom
      by_cases hClosed : 0 < totalBits bits current ∧
          packedCapacity < totalBits bits current + bits entry
      · have hClosed' : 0 < totalBits bits current' ∧
            packedCapacity < totalBits bits current' + bits entry := by omega
        rw [if_pos hClosed, if_pos hClosed']
        exact ⟨Nat.le_refl _, Nat.le_succ _⟩
      · rw [if_neg hClosed]
        split
        · -- The fuller group is closed, and only its rival has something in its open group.
          have hRival : totalBits bits [entry] ≤ totalBits bits (current ++ [entry]) := by
            rw [totalBits_append]
            omega
          obtain ⟨hLower, hUpper⟩ := ih hRival
          rw [List.length_cons]
          omega
        · refine ih ?_
          rw [totalBits_append, totalBits_append]
          omega

/-- What fits into the open group goes there. -/
theorem groupsFrom_append {added : List α}
    (hFits : totalBits bits (current ++ added) ≤ packedCapacity) (entries : List α) :
    groupsFrom bits current (added ++ entries) = groupsFrom bits (current ++ added) entries := by
  induction added generalizing current with
  | nil => rw [List.append_nil, List.nil_append]
  | cons entry rest ih =>
      have hRoom : ¬(0 < totalBits bits current ∧
          packedCapacity < totalBits bits current + bits entry) := by
        simp only [totalBits_append, totalBits_cons] at hFits
        omega
      rw [List.append_cons] at hFits ⊢
      rw [← ih hFits, List.cons_append, groupsFrom, if_neg hRoom]

/-- No way to cut a list into groups within the capacity makes fewer groups. -/
theorem groups_minimal {parts : List (List α)}
    (hFits : ∀ part ∈ parts, totalBits bits part ≤ packedCapacity) :
    (groups bits parts.flatten).length ≤ parts.length := by
  induction parts with
  | nil => exact Nat.le_refl 0
  | cons part rest ih =>
      obtain ⟨hPart, hRest⟩ := List.forall_mem_cons.1 hFits
      have hFromNone : totalBits bits ([] ++ part) ≤ packedCapacity := hPart
      have hJoined : groups bits (part ++ rest.flatten) = groupsFrom bits part rest.flatten :=
        groupsFrom_append hFromNone rest.flatten
      have hFuller : totalBits bits ([] : List α) ≤ totalBits bits part := Nat.zero_le _
      have hOneMore := (groupsFrom_length_le hFuller rest.flatten).2
      rw [List.flatten_cons, hJoined, List.length_cons]
      exact Nat.le_trans hOneMore (Nat.succ_le_succ (ih hRest))

end

/-! ## The number of a group -/

/-- The number that small values are written into, earlier ones in the higher bits. -/
def written : List (Element × Nat) → Nat
  | [] => 0
  | (x, _) :: rest => x.toNat * 2 ^ totalBits Prod.snd rest + written rest

/-- The values of a group with the given bits, read back from its number. -/
def splitUp : List Nat → Nat → List Nat
  | [], _ => []
  | _ :: rest, n => n / 2 ^ totalBits id rest :: splitUp rest (n % 2 ^ totalBits id rest)

/-- Reads small values with the given bits back from the elements that were packed. -/
def unpack (lengths : List Nat) (packed : List Signal) : Except Error (List Nat) := do
  let cut := groups id lengths
  let numbers ← (packed.drop (packed.length - cut.length)).mapM fun s : Signal => s.value
  return (List.zipWith splitUp cut (numbers.map Element.toNat)).flatten

/-- Whether a small value has at least one bit, at most as many as a group, and no more than it
says. -/
def Fits (entry : Element × Nat) : Prop :=
  0 < entry.2 ∧ entry.2 ≤ packedCapacity ∧ entry.1.toNat < 2 ^ entry.2

variable {group : List (Element × Nat)}

theorem written_lt (h : ∀ entry ∈ group, Fits entry) :
    written group < 2 ^ totalBits Prod.snd group := by
  induction group with
  | nil => exact Nat.one_pos
  | cons entry rest ih =>
      obtain ⟨⟨-, -, hHead⟩, hRest⟩ := List.forall_mem_cons.1 h
      have hTail := ih hRest
      have hStep : (entry.1.toNat + 1) * 2 ^ totalBits Prod.snd rest ≤
          2 ^ entry.2 * 2 ^ totalBits Prod.snd rest := Nat.mul_le_mul_right _ hHead
      rw [Nat.succ_mul, ← Nat.pow_add] at hStep
      show entry.1.toNat * 2 ^ totalBits Prod.snd rest + written rest < _
      rw [totalBits_cons]
      omega

/-- A value that is added from below shifts the others up. -/
theorem written_concat (group : List (Element × Nat)) (x : Element) (bits : Nat) :
    written (group ++ [(x, bits)]) = written group * 2 ^ bits + x.toNat := by
  induction group with
  | nil =>
      show x.toNat * 2 ^ 0 + 0 = 0 * 2 ^ bits + x.toNat
      omega
  | cons entry rest ih =>
      show entry.1.toNat * 2 ^ totalBits Prod.snd (rest ++ [(x, bits)]) +
        written (rest ++ [(x, bits)]) = (entry.1.toNat * 2 ^ _ + written rest) * 2 ^ bits + x.toNat
      rw [ih, totalBits_append, totalBits_cons, totalBits_nil, Nat.add_zero, Nat.pow_add,
        Nat.add_mul, Nat.mul_assoc, Nat.add_assoc]

/-- The values of a group are read back from its number. -/
theorem splitUp_written (h : ∀ entry ∈ group, Fits entry) :
    splitUp (group.map Prod.snd) (written group) = group.map fun entry => entry.1.toNat := by
  induction group with
  | nil => rfl
  | cons entry rest ih =>
      obtain ⟨-, hRest⟩ := List.forall_mem_cons.1 h
      have hTail : written rest < 2 ^ totalBits Prod.snd rest := written_lt hRest
      have hPos : 0 < 2 ^ totalBits Prod.snd rest := Nat.two_pow_pos _
      have hWritten : written (entry :: rest) =
          2 ^ totalBits Prod.snd rest * entry.1.toNat + written rest := by
        rw [Nat.mul_comm]
        rfl
      have hBits : totalBits id (rest.map Prod.snd) = totalBits Prod.snd rest :=
        totalBits_map Prod.snd rest
      rw [List.map_cons, splitUp, hBits, hWritten, Nat.mul_add_div hPos, Nat.div_eq_of_lt hTail,
        Nat.add_zero, Nat.mul_add_mod, Nat.mod_eq_of_lt hTail, ih hRest]
      rfl

/-! ## Packing -/

/-- The elements that are complete stay in front. -/
theorem packFrom_done (packed : List (Signal × Nat)) (done : List Signal) (group : Group)
    (runs : List Run) :
    packFrom done group packed runs =
      (done ++ (packFrom [] group packed runs).1, (packFrom [] group packed runs).2) := by
  induction packed generalizing done group runs with
  | nil =>
      show (if 0 < group.bits then done ++ [group.element] else done, runs) =
        (done ++ if 0 < group.bits then [] ++ [group.element] else [], runs)
      split
      · rfl
      · rw [List.append_nil]
  | cons entry packed ih =>
      obtain ⟨s, bits⟩ := entry
      show (packStep done group s bits >>= fun next => packFrom next.1 next.2 packed) runs =
        (done ++ ((packStep [] group s bits >>= fun next => packFrom next.1 next.2 packed) runs).1,
          ((packStep [] group s bits >>= fun next => packFrom next.1 next.2 packed) runs).2)
      unfold packStep
      split
      · show packFrom (done ++ [group.element]) _ packed _ =
          (done ++ (packFrom ([] ++ [group.element]) _ packed _).1,
            (packFrom ([] ++ [group.element]) _ packed _).2)
        rw [ih, ih ([] ++ [group.element]), List.append_assoc]
        rfl
      · exact ih done _ _

/-- Within the capacity, the elements of the groups are their numbers. -/
theorem packValues_written {smalls : List (Element × Nat)} (hFits : ∀ entry ∈ smalls, Fits entry) :
    ∀ {done : List Element} {g : Element} {current : List (Element × Nat)},
      (∀ entry ∈ current, Fits entry) → totalBits Prod.snd current ≤ packedCapacity →
      g.toNat = written current →
        (packValues done g (totalBits Prod.snd current) smalls).map Element.toNat =
          done.map Element.toNat ++ (groupsFrom Prod.snd current smalls).map written := by
  induction smalls with
  | nil =>
      intro done g current _ _ hGroup
      unfold packValues groupsFrom
      split
      · rw [List.map_append, List.map_singleton, List.map_singleton, hGroup]
      · exact (List.append_nil _).symm
  | cons entry rest ih =>
      intro done g current hCurrent hHeld hGroup
      obtain ⟨⟨hPos, hBits, hSmall⟩, hRest⟩ := List.forall_mem_cons.1 hFits
      have hEntry : ∀ e ∈ [entry], Fits e := List.forall_mem_singleton.2 ⟨hPos, hBits, hSmall⟩
      unfold packValues groupsFrom
      split
      · have hZero : (0 : Element).toNat < 2 ^ 0 := by decide
        have hAlone : 0 + entry.2 ≤ packedCapacity := by omega
        have hStarted : (shiftValue 0 entry.1 entry.2).toNat = written [entry] :=
          (toNat_shiftValue hZero hSmall hAlone).1.trans (written_concat [] entry.1 entry.2).symm
        refine (ih hRest hEntry hBits hStarted).trans ?_
        rw [List.map_append, List.append_assoc, List.map_singleton, hGroup]
        rfl
      · next hOpen =>
        have hLess : g.toNat < 2 ^ totalBits Prod.snd current := hGroup ▸ written_lt hCurrent
        have hRoom : totalBits Prod.snd current + entry.2 ≤ packedCapacity := by omega
        have hAdded : (shiftValue g entry.1 entry.2).toNat = written (current ++ [entry]) := by
          rw [(toNat_shiftValue hLess hSmall hRoom).1, hGroup, written_concat]
        have hTotal : totalBits Prod.snd (current ++ [entry]) =
            totalBits Prod.snd current + entry.2 := totalBits_append ..
        rw [← hTotal] at hRoom ⊢
        exact ih hRest (List.forall_mem_append.2 ⟨hCurrent, hEntry⟩) hRoom hAdded

/-- The values of groups are read back from their numbers. -/
theorem zipWith_splitUp {cut : List (List (Element × Nat))}
    (hFits : ∀ group ∈ cut, ∀ entry ∈ group, Fits entry) :
    List.zipWith splitUp (cut.map (List.map Prod.snd)) (cut.map written) =
      cut.map (List.map fun entry => entry.1.toNat) := by
  induction cut with
  | nil => rfl
  | cons group rest ih =>
      obtain ⟨hGroup, hRest⟩ := List.forall_mem_cons.1 hFits
      rw [List.map_cons, List.map_cons, List.map_cons, List.zipWith_cons_cons,
        splitUp_written hGroup, ih hRest]

section

variable {packed : List (Signal × Nat)} {smalls : List (Element × Nat)}

theorem groups_flatten (hFits : ∀ entry ∈ smalls, Fits entry) :
    (groups Prod.snd smalls).flatten = smalls :=
  groupsFrom_flatten (List.forall_mem_nil _) fun entry hEntry => (hFits entry hEntry).1

theorem groups_fit (hFits : ∀ entry ∈ smalls, Fits entry) :
    ∀ group ∈ groups Prod.snd smalls, ∀ entry ∈ group, Fits entry := by
  intro group hGroup entry hEntry
  refine hFits entry ?_
  rw [← groups_flatten hFits]
  exact List.mem_flatten_of_mem hGroup hEntry

/-- Small values are read back from the elements of their groups, whatever stands before. -/
theorem unpack_groups {elements : List Signal} {xs : List Element}
    (hFits : ∀ entry ∈ smalls, Fits entry)
    (hValues : (elements.mapM fun s : Signal => s.value) = .ok xs)
    (hWritten : xs.map Element.toNat = (groups Prod.snd smalls).map written)
    (fields : List Signal) :
    unpack (smalls.map Prod.snd) (fields ++ elements) =
      .ok (smalls.map fun entry => entry.1.toNat) := by
  have hCut : groups id (smalls.map Prod.snd) = (groups Prod.snd smalls).map (List.map Prod.snd) :=
    groupsFrom_map Prod.snd [] smalls
  have hCount : (groups id (smalls.map Prod.snd)).length = elements.length := by
    have hLengths := congrArg List.length hWritten
    rw [List.length_map, List.length_map] at hLengths
    rw [hCut, List.length_map, ← hLengths, (values_eq_ok.1 hValues).length_eq]
  have hElements : (fields ++ elements).drop
      ((fields ++ elements).length - (groups id (smalls.map Prod.snd)).length) = elements := by
    rw [hCount, List.length_append, Nat.add_sub_cancel, List.drop_left]
  simp only [unpack]
  rw [hElements, hValues, hCut]
  show Except.ok (List.zipWith splitUp _ (xs.map Element.toNat)).flatten = _
  rw [hWritten, zipWith_splitUp (groups_fit hFits), ← List.map_flatten, groups_flatten hFits]

/-- What is said of small values is said of the elements of their groups. -/
theorem groups_track {R : Signal → Element → Prop} {Open : List Run → Prop}
    (h : Signal.Tracks R Open)
    (hPacked : List.Forall₂ (fun p q => R p.1 q.1 ∧ p.2 = q.2) packed smalls) {runs : List Run}
    (hOpen : Open runs) :
    List.Forall₂ R (packFrom [] Group.empty packed runs).1 (packValues [] 0 0 smalls) :=
  packFrom_tracks h hPacked hOpen .nil (h.constant 0)

variable (hPacked : List.Forall₂ (fun p q => p.1.known? = some q.1 ∧ p.2 = q.2) packed smalls)

include hPacked

/-- How many groups there are does not depend on the runs. -/
theorem groups_length (runs : List Run) :
    (packFrom [] Group.empty packed runs).1.length = (packValues [] 0 0 smalls).length := by
  have hAny : List.Forall₂ (fun p q => (∀ z, p.1.known? = some z → z = q.1) ∧ p.2 = q.2)
      packed smalls := hPacked.imp fun _ _ h =>
    ⟨fun z hz => Option.some.inj (hz.symm.trans h.1), h.2⟩
  exact (groups_track Signal.tracks_sound hAny trivial).length_eq

/-- The elements of the groups are known where values are kept, or if the small values are
constants. -/
theorem groups_values {runs : List Run}
    (hKept : haveValues runs = true ∨ ∀ p ∈ packed, p.1.isConstant = true) :
    ((packFrom [] Group.empty packed runs).1.mapM fun s : Signal => s.value) =
      .ok (packValues [] 0 0 smalls) := by
  refine values_eq_ok.2 ?_
  rcases hKept with hKept | hConstant
  · exact groups_track Signal.tracks_known hPacked hKept
  · have hConstants : List.Forall₂ (fun p q => p.1 = .constant q.1 ∧ p.2 = q.2) packed smalls := by
      refine ((List.forall₂_and_left _ _).2 ⟨hConstant, hPacked⟩).imp ?_
      rintro ⟨_ | v, bits⟩ ⟨x, _⟩ ⟨hFixed, hValue, hBits⟩
      · exact ⟨congrArg Signal.constant (Option.some.inj hValue), hBits⟩
      · cases hFixed
    refine (groups_track Signal.tracks_constant hConstants trivial).imp ?_
    rintro _ _ rfl
    rfl

end

/-- Packing loses nothing and makes as few elements as can be. Take small values with at least one
bit, no more bits than the capacity and no more than their bits say.

They are cut into groups within the capacity, and no way to do so makes fewer of them. In whatever
runs, the whole elements come first and are followed by one element a group. Where values are
kept, or if the small values are constants, these elements have the numbers of the groups, which
are less than the modulus; and all small values are read back from the elements and the lengths. -/
theorem pack_groups (input : HashInput) {smalls : List (Element × Nat)}
    (hPacked : List.Forall₂ (fun p q => p.1.value = .ok q.1 ∧ p.2 = q.2) input.packed smalls)
    (hFits : ∀ entry ∈ smalls, Fits entry) :
    ∃ cut : List (List (Element × Nat)), cut.flatten = smalls ∧
      (∀ group ∈ cut, group ≠ [] ∧ totalBits Prod.snd group ≤ packedCapacity ∧
        written group < 2 ^ packedCapacity ∧ written group < modulus) ∧
      (∀ parts : List (List (Element × Nat)), parts.flatten = smalls →
        (∀ part ∈ parts, totalBits Prod.snd part ≤ packedCapacity) → cut.length ≤ parts.length) ∧
      ∀ runs, ∃ elements, (input.pack runs).1 = input.fields ++ elements ∧
        elements.length = cut.length ∧
        (haveValues runs = true ∨ (∀ p ∈ input.packed, p.1.isConstant = true) →
          (∃ xs, (elements.mapM fun s : Signal => s.value) = .ok xs ∧
            xs.map Element.toNat = cut.map written) ∧
          unpack (smalls.map Prod.snd) (input.pack runs).1 =
            .ok (smalls.map fun entry => entry.1.toNat)) := by
  have hKnown : List.Forall₂ (fun p q => p.1.known? = some q.1 ∧ p.2 = q.2) input.packed smalls :=
    hPacked.imp fun _ _ h => ⟨Signal.value_eq_ok.1 h.1, h.2⟩
  have hWritten : (packValues [] 0 0 smalls).map Element.toNat =
      (groups Prod.snd smalls).map written :=
    packValues_written hFits (List.forall_mem_nil _) (Nat.zero_le _) rfl
  refine ⟨groups Prod.snd smalls, groups_flatten hFits, fun group hGroup => ?_, ?_,
    fun runs => ?_⟩
  · obtain ⟨hSome, hTotal⟩ := groupsFrom_fits (Nat.zero_le _)
      (fun entry hEntry => (hFits entry hEntry).2.1) group hGroup
    have hLess : written group < 2 ^ packedCapacity :=
      Nat.lt_of_lt_of_le (written_lt (groups_fit hFits group hGroup))
        (Nat.pow_le_pow_right Nat.two_pos hTotal)
    exact ⟨hSome, hTotal, hLess, Nat.lt_trans hLess (two_pow_lt_modulus (Nat.le_refl _))⟩
  · rintro parts rfl hParts
    exact groups_minimal hParts
  · have hPack : (input.pack runs).1 =
        input.fields ++ (packFrom [] Group.empty input.packed runs).1 :=
      congrArg Prod.fst (packFrom_done input.packed input.fields Group.empty runs)
    have hLength : (packFrom [] Group.empty input.packed runs).1.length =
        (groups Prod.snd smalls).length := by
      rw [groups_length hKnown, ← List.length_map Element.toNat, hWritten, List.length_map]
    refine ⟨_, hPack, hLength, fun hKept => ?_⟩
    have hValues := groups_values hKnown hKept
    rw [hPack]
    exact ⟨⟨_, hValues, hWritten⟩, unpack_groups hFits hValues hWritten input.fields⟩

/-! ## A flag and two words -/

/-- A whole element, a flag and two words of 32 bits, the first of them a variable. -/
private def flagAndWords : HashInput :=
  ⟨[.constant 7], [(.constant 1, 1), (.variable ⟨0, some 5⟩, 32), (.constant 9, 32)]⟩

/-- A flag and two words take two elements and are read back from them. -/
theorem pack_groups_flagAndWords :
    ∃ cut : List (List (Element × Nat)), cut.flatten = [(1, 1), (5, 32), (9, 32)] ∧
      cut.length ≤ 2 ∧ ∃ elements, (flagAndWords.pack []).1 = [.constant 7] ++ elements ∧
        elements.length = cut.length ∧
        unpack [1, 32, 32] (flagAndWords.pack []).1 = .ok [1, 5, 9] := by
  have hPacked : List.Forall₂ (fun p q => p.1.value = .ok q.1 ∧ p.2 = q.2) flagAndWords.packed
      [((1 : Element), 1), (5, 32), (9, 32)] :=
    .cons ⟨rfl, rfl⟩ (.cons ⟨rfl, rfl⟩ (.cons ⟨rfl, rfl⟩ .nil))
  have hFits : ∀ entry ∈ [((1 : Element), 1), (5, 32), (9, 32)], Fits entry := by
    unfold Fits
    decide
  obtain ⟨cut, hFlatten, -, hMinimal, hPack⟩ := pack_groups flagAndWords hPacked hFits
  obtain ⟨elements, hElements, hLength, hKept⟩ := hPack []
  refine ⟨cut, hFlatten, ?_, elements, hElements, hLength, (hKept (.inl rfl)).2⟩
  exact hMinimal [[(1, 1), (5, 32)], [(9, 32)]] rfl (by decide)

end HashInput

end TypedCircuit
