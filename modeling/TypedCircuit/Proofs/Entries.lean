import TypedCircuit.Entries
import TypedCircuit.Proofs.Success
import Mathlib.Data.List.Perm.Subperm

/-!
# Maps as lists of entries

A map is known by what it finds. Here this becomes a proof method: two maps in ascending
order that find the same under every name are equal lists, so equations between maps are
proved name by name, in whatever order the maps were built.

## Main results

* `Sorted.ext` — maps that find the same are equal.
* `find?_ofList` — a map built from distinct names finds what the list has under them.
* `find?_reordered` — entries in another order find what they found.
* `nameSet_eq_names_iff` — names that are as many as their set, which is that of a map, are the
  names of the map in some order.
-/

namespace TypedCircuit.Entries

variable {α β : Type}

theorem find?_cons (key : String) (a : α) (rest : Entries α) (name : String) :
    find? ((key, a) :: rest) name = if key = name then some a else find? rest name := rfl

theorem find?_cons_self (key : String) (a : α) (rest : Entries α) :
    find? ((key, a) :: rest) key = some a := if_pos rfl

theorem find?_cons_ne {key name : String} (h : key ≠ name) (a : α) (rest : Entries α) :
    find? ((key, a) :: rest) name = find? rest name := if_neg h

theorem find?_eq_none_iff {entries : Entries α} {name : String} :
    entries.find? name = none ↔ name ∉ entries.names := by
  induction entries with
  | nil => simp [find?, names]
  | cons entry rest ih =>
      obtain ⟨key, a⟩ := entry
      rw [find?_cons]
      by_cases hKey : key = name
      · simp [hKey, names]
      · have hNe : name ≠ key := fun h => hKey h.symm
        rw [if_neg hKey, ih]
        simp [names, hNe]

theorem find?_map (f : α → β) (entries : Entries α) (name : String) :
    find? (entries.map fun entry => (entry.1, f entry.2)) name = (entries.find? name).map f := by
  induction entries with
  | nil => rfl
  | cons entry rest ih =>
      obtain ⟨key, a⟩ := entry
      rw [List.map_cons, find?_cons, find?_cons, ih]
      split <;> rfl

theorem mem_names_of_find? {entries : Entries α} {name : String} {a : α}
    (h : entries.find? name = some a) : name ∈ entries.names := by
  by_contra hAbsent
  rw [find?_eq_none_iff.2 hAbsent] at h
  cases h

theorem mem_of_find? {entries : Entries α} {name : String} {a : α}
    (h : entries.find? name = some a) : (name, a) ∈ entries := by
  induction entries with
  | nil => cases h
  | cons entry rest ih =>
      obtain ⟨key, b⟩ := entry
      by_cases hKey : key = name
      · subst hKey
        rw [find?_cons_self] at h
        cases h
        exact List.mem_cons_self
      · rw [find?_cons_ne hKey] at h
        exact List.mem_cons_of_mem _ (ih h)

theorem exists_find?_of_mem {entries : Entries α} {name : String} (h : name ∈ entries.names) :
    ∃ a, entries.find? name = some a := by
  cases hFind : entries.find? name with
  | none => exact absurd h (find?_eq_none_iff.1 hFind)
  | some a => exact ⟨a, rfl⟩

/-! ## Order -/

theorem Sorted.tail {key : String} {a : α} {rest : Entries α}
    (h : Sorted ((key, a) :: rest)) : Sorted rest := (List.pairwise_cons.1 h).2

theorem Sorted.head_lt {key name : String} {a : α} {rest : Entries α}
    (h : Sorted ((key, a) :: rest)) (hName : name ∈ names rest) : key < name :=
  (List.pairwise_cons.1 h).1 name hName

/-- Nothing is found twice. -/
theorem Sorted.head_notMem {key : String} {a : α} {rest : Entries α}
    (h : Sorted ((key, a) :: rest)) : key ∉ names rest :=
  fun hName => String.lt_irrefl key (h.head_lt hName)

theorem Sorted.nodup {entries : Entries α} (h : entries.Sorted) :
    (entries.map Prod.fst).Nodup :=
  h.imp fun {key other} (hLt : key < other) (hEq : key = other) =>
    String.lt_irrefl key (hEq ▸ hLt)

/-- Under distinct names, every entry is found. -/
theorem find?_of_nodup {entries : Entries α} (h : entries.names.Nodup) {entry : String × α}
    (hEntry : entry ∈ entries) : entries.find? entry.1 = some entry.2 := by
  induction entries with
  | nil => cases hEntry
  | cons first rest ih =>
      obtain ⟨key, a⟩ := first
      obtain ⟨hKey, hNames⟩ := List.nodup_cons.1 h
      rcases List.mem_cons.1 hEntry with rfl | hRest
      · exact find?_cons_self key a rest
      · have hName : entry.1 ∈ names rest := List.mem_map_of_mem hRest
        have hNe : key ≠ entry.1 := fun hEq => hKey (hEq ▸ hName)
        rw [find?_cons_ne hNe]
        exact ih hNames hRest

/-- In order, every entry is found. -/
theorem find?_of_mem {entries : Entries α} (h : entries.Sorted) {entry : String × α}
    (hEntry : entry ∈ entries) : entries.find? entry.1 = some entry.2 :=
  find?_of_nodup h.nodup hEntry

/-- The first name of two maps that find the same is the same. -/
private theorem Sorted.head_eq {key other : String} {a b : α} {xs ys : Entries α}
    (hx : Sorted ((key, a) :: xs)) (hy : Sorted ((other, b) :: ys))
    (h : ∀ name, find? ((key, a) :: xs) name = find? ((other, b) :: ys) name) :
    key = other := by
  have hOther : other ∈ names ((key, a) :: xs) := by
    refine mem_names_of_find? (a := b) ?_
    rw [h, find?_cons_self]
  have hKey : key ∈ names ((other, b) :: ys) := by
    refine mem_names_of_find? (a := a) ?_
    rw [← h, find?_cons_self]
  rcases List.mem_cons.1 hOther with hEq | hOther
  · exact hEq.symm
  · rcases List.mem_cons.1 hKey with hEq | hKey
    · exact hEq
    · exact absurd (String.lt_trans (hx.head_lt hOther) (hy.head_lt hKey))
        (String.lt_irrefl key)

/-- Maps in ascending order that find the same under every name are equal. -/
theorem Sorted.ext {xs ys : Entries α} (hx : xs.Sorted) (hy : ys.Sorted)
    (h : ∀ name, xs.find? name = ys.find? name) : xs = ys := by
  induction xs generalizing ys with
  | nil =>
      cases ys with
      | nil => rfl
      | cons entry ys =>
          have hFind := h entry.1
          rw [find?_cons_self] at hFind
          cases hFind
  | cons entry xs ih =>
      obtain ⟨key, a⟩ := entry
      cases ys with
      | nil =>
          have hFind := h key
          rw [find?_cons_self] at hFind
          cases hFind
      | cons entry ys =>
          obtain ⟨other, b⟩ := entry
          obtain rfl := hx.head_eq hy h
          have hHead := h key
          rw [find?_cons_self, find?_cons_self] at hHead
          cases hHead
          refine congrArg _ (ih hx.tail hy.tail fun name => ?_)
          by_cases hKey : key = name
          · subst hKey
            rw [find?_eq_none_iff.2 hx.head_notMem, find?_eq_none_iff.2 hy.head_notMem]
          · have hName := h name
            rwa [find?_cons_ne hKey, find?_cons_ne hKey] at hName

/-! ## Building -/

/-- A name below all others goes first. -/
theorem insert_of_lt {entries : Entries α} {name : String} {a : α}
    (h : ∀ other ∈ entries.names, name < other) : entries.insert name a = (name, a) :: entries := by
  cases entries with
  | nil => rfl
  | cons entry rest =>
      obtain ⟨key, b⟩ := entry
      exact if_pos (h key List.mem_cons_self)

theorem find?_insert (entries : Entries α) (key name : String) (a : α) :
    (entries.insert key a).find? name = if key = name then some a else entries.find? name := by
  by_cases h : key = name
  · subst h
    rw [if_pos rfl, find?_insert_self]
  · rw [if_neg h, find?_insert_ne entries a h]

/-- Inserting brings in nothing but the entry that is inserted. -/
theorem mem_insert {entries : Entries α} {name : String} {a : α} {entry : String × α}
    (h : entry ∈ entries.insert name a) : entry = (name, a) ∨ entry ∈ entries := by
  induction entries with
  | nil => exact .inl (List.mem_singleton.1 h)
  | cons first rest ih =>
      obtain ⟨key, b⟩ := first
      simp only [insert] at h
      split at h
      · exact List.mem_cons.1 h
      · split at h
        · exact (List.mem_cons.1 h).imp_right (List.mem_cons_of_mem _)
        · rcases List.mem_cons.1 h with rfl | hRest
          · exact .inr List.mem_cons_self
          · exact (ih hRest).imp_right (List.mem_cons_of_mem _)

/-- A map built from a list of entries has no others. -/
theorem mem_ofList {entries : List (String × α)} {entry : String × α}
    (h : entry ∈ ofList entries) : entry ∈ entries := by
  suffices hAll : ∀ out : Entries α,
      entry ∈ entries.foldl (fun out entry => out.insert entry.1 entry.2) out →
        entry ∈ entries ∨ entry ∈ out from (hAll [] h).resolve_right List.not_mem_nil
  clear h
  induction entries with
  | nil => exact fun _ hOut => .inr hOut
  | cons first rest ih =>
      intro out hOut
      rcases ih _ hOut with hRest | hInsert
      · exact .inl (List.mem_cons_of_mem _ hRest)
      · rcases mem_insert hInsert with rfl | hOld
        · exact .inl List.mem_cons_self
        · exact .inr hOld

private theorem find?_insertAll (entries : List (String × α)) (out : Entries α)
    (h : (names entries).Nodup) (name : String) :
    find? (entries.foldl (fun out entry => out.insert entry.1 entry.2) out) name =
      (find? entries name).or (out.find? name) := by
  induction entries generalizing out with
  | nil => rfl
  | cons entry rest ih =>
      obtain ⟨key, a⟩ := entry
      obtain ⟨hKey, hRest⟩ := List.nodup_cons.1 h
      rw [List.foldl_cons, ih _ hRest, find?_insert, find?_cons]
      by_cases hName : key = name
      · subst hName
        rw [find?_eq_none_iff.2 hKey, if_pos rfl, if_pos rfl]
        rfl
      · rw [if_neg hName, if_neg hName]

/-- A map built from entries of distinct names finds what the list of entries has. -/
theorem find?_ofList {entries : List (String × α)} (h : (names entries).Nodup)
    (name : String) : (ofList entries).find? name = find? entries name := by
  rw [ofList, find?_insertAll entries [] h]
  cases find? entries name <;> rfl

/-- A map built from entries of distinct names has their names. -/
theorem names_ofList_perm {entries : List (String × α)} (h : (names entries).Nodup) :
    (names (ofList entries)).Perm (names entries) := by
  refine (List.perm_ext_iff_of_nodup (sorted_ofList entries).nodup h).2 fun name => ?_
  have hFind := find?_ofList h name
  rw [← not_iff_not]
  exact find?_eq_none_iff.symm.trans ((Iff.of_eq (congrArg (· = none) hFind)).trans
    find?_eq_none_iff)

/-- Entries of distinct names are found in every order. -/
theorem find?_perm {xs ys : Entries α} (hPerm : xs.Perm ys) (h : ys.names.Nodup) (name : String) :
    xs.find? name = ys.find? name := by
  cases hFind : ys.find? name with
  | none =>
      exact find?_eq_none_iff.2 fun hName =>
        find?_eq_none_iff.1 hFind ((hPerm.map Prod.fst).mem_iff.1 hName)
  | some a =>
      have hNodup : xs.names.Nodup := (hPerm.map Prod.fst).nodup_iff.2 h
      exact find?_of_nodup hNodup (hPerm.mem_iff.2 (mem_of_find? hFind))

/-- A map does not depend on the order in which it is built from entries of distinct names. -/
theorem ofList_perm {xs ys : List (String × α)} (hPerm : xs.Perm ys) (h : (names ys).Nodup) :
    ofList xs = ofList ys := by
  have hNodup : (names xs).Nodup := (hPerm.map Prod.fst).nodup_iff.2 h
  refine (sorted_ofList xs).ext (sorted_ofList ys) fun name => ?_
  rw [find?_ofList hNodup, find?_ofList h, find?_perm hPerm h]

/-- A map is built from its own entries in any order. -/
theorem Sorted.ofList_perm {xs : List (String × α)} {ys : Entries α} (h : ys.Sorted)
    (hPerm : xs.Perm ys) : ofList xs = ys := by
  refine (Entries.ofList_perm hPerm h.nodup).trans ?_
  exact (sorted_ofList ys).ext h fun name => find?_ofList h.nodup name

/-- Under distinct names, each name finds what it was paired with. -/
theorem find?_zip {keys : List String} {values : List α} (hNodup : keys.Nodup)
    (hLength : keys.length = values.length) :
    List.Forall₂ (fun key a => find? (keys.zip values) key = some a) keys values := by
  induction keys generalizing values with
  | nil =>
      obtain rfl := List.length_eq_zero_iff.1 hLength.symm
      exact .nil
  | cons key keys ih =>
      cases values with
      | nil => cases hLength
      | cons a values =>
          obtain ⟨hKey, hKeys⟩ := List.nodup_cons.1 hNodup
          refine .cons (find?_cons_self key a _) ?_
          have hOther : ∀ other ∈ keys, key ≠ other := fun other hMem hEq => hKey (hEq ▸ hMem)
          have hRest := ih hKeys (Nat.succ.inj hLength)
          refine ((List.forall₂_and_left _ _).2 ⟨hOther, hRest⟩).imp ?_
          exact fun other b h => (find?_cons_ne h.1 a _).trans h.2

theorem names_zip {keys : List String} {values : List α} (h : keys.length = values.length) :
    names (keys.zip values) = keys := List.map_fst_zip (Nat.le_of_eq h)

/-! ## Sets of names -/

theorem mem_names_ofList {entries : List (String × α)} {name : String} :
    name ∈ (ofList entries).names ↔ name ∈ names entries := by
  suffices hAll : ∀ out : Entries α,
      name ∈ names (entries.foldl (fun out entry => out.insert entry.1 entry.2) out) ↔
        name ∈ names entries ∨ name ∈ out.names from
    (hAll []).trans (or_iff_left List.not_mem_nil)
  induction entries with
  | nil => exact fun _ => (or_iff_right List.not_mem_nil).symm
  | cons entry rest ih =>
      intro out
      have hInsert : name ∈ (out.insert entry.1 entry.2).names ↔
          name = entry.1 ∨ name ∈ out.names := by
        rw [← not_iff_not, ← find?_eq_none_iff, find?_insert, not_or, ← find?_eq_none_iff]
        by_cases hName : entry.1 = name
        · rw [if_pos hName]
          exact iff_of_false nofun fun h => h.1 hName.symm
        · rw [if_neg hName]
          exact (and_iff_right fun h => hName h.symm).symm
      rw [List.foldl_cons, ih, hInsert, ← or_assoc, or_comm (b := name = entry.1)]
      exact or_congr_left List.mem_cons.symm

theorem mem_nameSet {names : List String} {name : String} :
    name ∈ nameSet names ↔ name ∈ names := by
  have hNames : Entries.names (names.map fun name => (name, ())) = names := by
    rw [Entries.names, List.map_map]
    exact List.map_id names
  rw [nameSet, mem_names_ofList, hNames]

theorem nodup_nameSet (names : List String) : (nameSet names).Nodup := (sorted_ofList _).nodup

/-- As many names as there are in their set are the set in some order. -/
theorem perm_nameSet {names : List String} (h : (nameSet names).length = names.length) :
    names.Perm (nameSet names) := by
  have hSubset : nameSet names ⊆ names := fun _ hName => mem_nameSet.1 hName
  refine ((List.subperm_of_subset (nodup_nameSet names) hSubset).perm_of_length_le ?_).symm
  exact Nat.le_of_eq h.symm

/-- Names are those of a map in some order if none is named twice and their set is the set of the
names of the map. -/
theorem nameSet_eq_names_iff {entries : Entries α} (h : entries.Sorted) {order : List String} :
    (nameSet order).length = order.length ∧ nameSet order = entries.names ↔
      order.Perm entries.names := by
  constructor
  · rintro ⟨hLength, hNames⟩
    exact hNames ▸ perm_nameSet hLength
  · intro hPerm
    have hNodup : order.Nodup := hPerm.nodup_iff.2 h.nodup
    have hSet : (nameSet order).Perm order :=
      (List.perm_ext_iff_of_nodup (nodup_nameSet order) hNodup).2 fun _ => mem_nameSet
    refine ⟨hSet.length_eq, (hSet.trans hPerm).eq_of_pairwise ?_ (sorted_ofList _) h⟩
    exact fun _ _ _ _ hLt hGt => absurd (String.lt_trans hLt hGt) (String.lt_irrefl _)

/-! ## Two maps -/

/-- Entries that have the same names one by one. -/
theorem names_eq_of_forall₂ {xs : Entries α} {ys : Entries β}
    (h : List.Forall₂ (fun m n => m.1 = n.1) xs ys) : xs.names = ys.names := by
  rw [names, names, ← List.forall₂_eq_eq_eq, List.forall₂_map_left_iff,
    List.forall₂_map_right_iff]
  exact h

/-- Of two maps with the same number of names, one has all names of the other only if both have the
same names. -/
theorem Sorted.names_eq {xs : Entries α} {ys : Entries β} (hx : xs.Sorted) (hy : ys.Sorted)
    (hLength : xs.length = ys.length) (h : xs.names ⊆ ys.names) : xs.names = ys.names := by
  have hCount : xs.names.length = ys.names.length := by
    rw [names, names, List.length_map, List.length_map, hLength]
  have hPerm := (List.subperm_of_subset hx.nodup h).perm_of_length_le (Nat.le_of_eq hCount.symm)
  refine hPerm.eq_of_pairwise ?_ hx hy
  exact fun _ _ _ _ hLt hGt => absurd (String.lt_trans hLt hGt) (String.lt_irrefl _)

/-- Two maps with the same number of names are related entry by entry if all that is under a name in
one of them is related to what the other one finds there. -/
theorem Sorted.forall₂_iff_finds {R : α → β → Prop} {xs : Entries α} {ys : Entries β}
    (hx : xs.Sorted) (hy : ys.Sorted) (hLength : xs.length = ys.length) :
    List.Forall₂ (fun m n => m.1 = n.1 ∧ R m.2 n.2) xs ys ↔
      ∀ m ∈ xs, ∃ b, ys.find? m.1 = some b ∧ R m.2 b := by
  constructor
  · intro h m hm
    obtain ⟨n, hn, hName, hRel⟩ := exists_of_forall₂_mem h.flip hm
    exact ⟨n.2, hName ▸ find?_of_mem hy hn, hRel⟩
  · intro h
    have hNames := hx.names_eq hy hLength fun name hName => by
      obtain ⟨m, hm, rfl⟩ := List.mem_map.1 hName
      obtain ⟨b, hb, -⟩ := h m hm
      exact mem_names_of_find? hb
    clear hLength
    induction xs generalizing ys with
    | nil =>
        cases ys with
        | nil => exact .nil
        | cons n ys => cases hNames
    | cons m xs ih =>
        cases ys with
        | nil => cases hNames
        | cons n ys =>
            obtain ⟨key, a⟩ := m
            obtain ⟨other, b⟩ := n
            obtain ⟨rfl, hTail⟩ := List.cons.inj hNames
            obtain ⟨⟨c, hc, hHead⟩, hRest⟩ := List.forall_mem_cons.1 h
            cases (find?_cons_self key b ys).symm.trans hc
            refine .cons ⟨rfl, hHead⟩ (ih hx.tail hy.tail (fun m hm => ?_) hTail)
            obtain ⟨c, hc, hRel⟩ := hRest m hm
            have hNe : key ≠ m.1 := fun hEq =>
              hx.head_notMem (hEq ▸ List.mem_map_of_mem hm)
            exact ⟨c, (find?_cons_ne hNe b ys).symm.trans hc, hRel⟩

/-! ## Other orders -/

theorem names_reordered_sublist (entries : Entries α) (order : List String) :
    ((order.filterMap fun key => (entries.find? key).map (key, ·)).map Prod.fst).Sublist order := by
  induction order with
  | nil => exact List.Sublist.refl []
  | cons key rest ih =>
      rw [List.filterMap_cons]
      cases entries.find? key with
      | none => exact ih.cons key
      | some a => exact ih.cons_cons key

/-- Entries of distinct names are in the order of their names. -/
theorem reordered_self {entries : Entries α} (h : entries.names.Nodup) :
    (entries.names.filterMap fun key => (entries.find? key).map (key, ·)) = entries := by
  induction entries with
  | nil => rfl
  | cons entry rest ih =>
      obtain ⟨key, a⟩ := entry
      obtain ⟨hKey, hRest⟩ := List.nodup_cons.1 h
      have hTail : (names rest).filterMap (fun other =>
          (find? ((key, a) :: rest) other).map (other, ·)) =
            (names rest).filterMap fun other => (find? rest other).map (other, ·) := by
        refine List.filterMap_congr fun other hOther => ?_
        have hNe : key ≠ other := fun hSame => hKey (hSame ▸ hOther)
        rw [find?_cons_ne hNe]
      show (key :: names rest).filterMap _ = _
      rw [List.filterMap_cons, find?_cons_self, hTail, ih hRest]
      rfl

/-- In another order of their names, entries are the same ones. -/
theorem reordered_perm {entries : Entries α} (h : entries.names.Nodup) {order : List String}
    (hPerm : order.Perm entries.names) :
    (order.filterMap fun key => (entries.find? key).map (key, ·)).Perm entries := by
  have hSelf := hPerm.filterMap fun key => (entries.find? key).map (key, ·)
  rwa [reordered_self h] at hSelf

/-- Entries in another order of their names have their names in this order. -/
theorem names_reordered {entries : Entries α} (h : entries.names.Nodup) {order : List String}
    (hPerm : order.Perm entries.names) :
    names (order.filterMap fun key => (entries.find? key).map (key, ·)) = order := by
  refine (names_reordered_sublist entries order).eq_of_length ?_
  rw [((reordered_perm h hPerm).map Prod.fst).length_eq, hPerm.length_eq]
  rfl

/-- Under the names that are asked for, a selection of entries finds what the entries have. -/
theorem find?_selected (entries : Entries α) (order : List String) (name : String) :
    find? (order.filterMap fun key => (entries.find? key).map (key, ·)) name =
      if name ∈ order then entries.find? name else none := by
  induction order with
  | nil => rfl
  | cons key rest ih =>
      rw [List.filterMap_cons]
      by_cases hKey : key = name
      · subst hKey
        rw [if_pos List.mem_cons_self]
        cases hOwn : entries.find? key with
        | none =>
            show find? (rest.filterMap _) key = none
            rw [ih, hOwn, ite_self]
        | some a => exact find?_cons_self key a _
      · have hMem : name ∈ key :: rest ↔ name ∈ rest :=
          List.mem_cons.trans (or_iff_right fun hSame => hKey hSame.symm)
        rw [if_congr hMem rfl rfl, ← ih]
        cases entries.find? key with
        | none => rfl
        | some a => exact find?_cons_ne hKey a _

/-- Entries in another order find what they found. -/
theorem find?_reordered {entries : Entries α} {order : List String}
    (h : order.Perm entries.names) (name : String) :
    find? (order.filterMap fun key => (entries.find? key).map (key, ·)) name =
      entries.find? name := by
  rw [find?_selected]
  by_cases hName : name ∈ order
  · exact if_pos hName
  · rw [if_neg hName]
    exact (find?_eq_none_iff.2 fun hMem => hName (h.mem_iff.2 hMem)).symm

end TypedCircuit.Entries
