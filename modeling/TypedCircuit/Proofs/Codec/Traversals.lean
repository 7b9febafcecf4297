import TypedCircuit.Codec.Sequence
import TypedCircuit.Proofs.Success

/-!
# Three ways through a sequence

A tuple, an array and a list of a shape visit their items in three ways. What they do with them is
the same. An array takes the blocks at the indices of its items where a tuple takes shares from the
front; a list slices at running offsets and appends to the results so far. Here the operations of an
array and of a list are shown to be those of a tuple, results and errors alike, so that all that
follows is proved of tuples.

The walks of a list carry their results along. What is proved of such a walk is what it appends, for
any results that came before. Where a step depends on the item alone, this is one lemma for all
walks, `Part.walk_eq`.

## Main results

* `Part.rebuildBlocks_eq` — the blocks of an array are the shares of the tuple of its copies.
* `Part.replicated_flatten`, `Part.replicated_check` and the like — an array does with its items
  what the tuple of its copies does.
* `Part.listed_eq_sequence` — a list of a shape is a tuple.
-/

namespace TypedCircuit

/-- A slice of a given length is what is taken behind its start. -/
theorem Part.slice_add {α : Type} (xs : List α) (start length : Nat) :
    Part.slice xs.toArray start (start + length) = (xs.drop start).take length := by
  rw [Part.slice, List.extract_toArray, List.extract_eq_take_drop, Nat.add_sub_cancel_left]

/-! ## Blocks -/

section Blocks

variable {α : Type}

/-- The block at a position of a list of blocks of length `n`. -/
def block (n : Nat) (xs : List α) (position : Nat) : List α := (xs.drop (position * n)).take n

theorem block_zero (n : Nat) (xs : List α) : block n xs 0 = xs.take n := by
  rw [block, Nat.zero_mul, List.drop_zero]

theorem block_succ (n : Nat) (xs : List α) (position : Nat) :
    block n xs (position + 1) = block n (xs.drop n) position := by
  rw [block, block, List.drop_drop, Nat.succ_mul, Nat.add_comm]

theorem slice_block (n : Nat) (xs : List α) (position : Nat) :
    Part.slice xs.toArray (position * n) ((position + 1) * n) = block n xs position := by
  rw [Nat.succ_mul, Part.slice_add, block]

/-- The shares of equal widths are the blocks at their indices. -/
theorem shares_replicate (count : Nat) (width : Width) (fields : List Signal) (aux : List Value) :
    shares (List.replicate count width) fields aux =
      (List.range count).map fun i => (block width.fields fields i, block width.aux aux i) := by
  induction count generalizing fields aux with
  | zero => rfl
  | succ n ih =>
      rw [List.replicate_succ, shares_cons, ih, List.range_succ_eq_map, List.map_cons, List.map_map,
        block_zero, block_zero]
      refine congrArg _ (List.map_congr_left fun i _ => ?_)
      exact congrArg₂ Prod.mk (block_succ _ _ _).symm (block_succ _ _ _).symm

end Blocks

/-- Hash inputs that are appended one after the other. -/
theorem HashInput.foldl_append (out : HashInput) (inputs : List HashInput) :
    inputs.foldl append out = out.append (concat inputs) := by
  induction inputs generalizing out with
  | nil => simp [append, concat]
  | cons input rest ih =>
      rw [List.foldl_cons, ih]
      simp [append, concat]

namespace Part

/-! ## Items of a given number -/

theorem expectItems_eq_ok {typeName : String} {count : Nat} {v : Value} {items : List Value} :
    expectItems typeName count v = .ok items ↔ v = .array items ∧ items.length = count := by
  unfold expectItems
  cases v with
  | array found =>
      by_cases h : found.length = count
      · simp only [Value.items?, h, if_pos]
        constructor
        · intro hEq; cases hEq; exact ⟨rfl, h⟩
        · rintro ⟨hEq, -⟩; cases hEq; rfl
      · simp only [Value.items?, h, if_false]
        exact ⟨nofun, fun ⟨hEq, hLength⟩ => by cases hEq; exact absurd hLength h⟩
  | signal | bit | record | primitive | opaqueValue => exact ⟨nofun, nofun⟩

/-! ## Arrays -/

/-- Copies of a part beside as many things. -/
theorem zip_copies {α : Type} (p : Part) {count : Nat} (xs : List α) (h : xs.length = count) :
    (List.replicate count p).zip xs = xs.map (Prod.mk p) := by
  induction xs generalizing count with
  | nil => rw [List.zip_nil_right, List.map_nil]
  | cons x rest ih =>
      subst h
      rw [List.length_cons, List.replicate_succ, List.zip_cons_cons, ih rfl, List.map_cons]

theorem auxiliaryAll_replicate (p : Part) (items : List Value) :
    auxiliaryAll (List.replicate items.length p) items = items.flatMap p.auxiliary := by
  rw [auxiliaryAll, zip_copies p items rfl, List.flatMap_map]

/-- The blocks of an array are the shares of the tuple of its copies. -/
theorem rebuildBlocks_eq (p : Part) (width : Width) (count : Nat) (fields : List Signal)
    (aux : List Value) :
    rebuildBlocks p width count fields aux =
      rebuildAll (List.replicate count p) (shares (List.replicate count width) fields aux) := by
  have hCount : ((List.range count).map fun i =>
      (block width.fields fields i, block width.aux aux i)).length = count := by
    rw [List.length_map, List.length_range]
  rw [rebuildAll, shares_replicate, zip_copies p _ hCount, List.map_map, List.mapM_map]
  simp only [rebuildBlocks, slice_block]
  rfl

section

variable (p : Part) (typeName : String) (count : Nat) (v : Value)

/-- What is done with the items of an array is done by the tuple of its copies. -/
theorem expectItems_replicate {β : Type} {each : List Value → Except Error β}
    {visit : List Part → List Value → Except Error β}
    (h : ∀ items, visit (List.replicate items.length p) items = each items) :
    (expectItems typeName count v >>= each) =
      (expectItems typeName (List.replicate count p).length v >>=
        visit (List.replicate count p)) := by
  rw [List.length_replicate]
  cases hItems : expectItems typeName count v with
  | error e => rfl
  | ok items =>
      obtain ⟨-, rfl⟩ := expectItems_eq_ok.1 hItems
      exact (h items).symm

/-- What copies of a part flatten to is what the sequence of the copies does. -/
theorem replicated_flatten : (replicated typeName p count).flatten v =
    (sequence typeName (List.replicate count p)).flatten v :=
  expectItems_replicate p typeName count v fun items => by
    rw [flattenAll, zip_copies p items rfl, List.mapM_map]
    rfl

/-- Copies of a part are hashed as the sequence of the copies. -/
theorem replicated_input : (replicated typeName p count).input v =
    (sequence typeName (List.replicate count p)).input v :=
  expectItems_replicate p typeName count v fun items => by
    rw [inputAll, zip_copies p items rfl, List.mapM_map]
    rfl

/-- Copies of a part write what the sequence of the copies writes. -/
theorem replicated_encode : (replicated typeName p count).encode v =
    (sequence typeName (List.replicate count p)).encode v :=
  @expectItems_replicate p typeName count v _ _
    (fun parts items => encodeAll parts items >>= fun documents => pure (Json.array documents))
    fun items => by
      rw [encodeAll, zip_copies p items rfl, List.mapM_map]
      rfl

/-- Copies of a part are checked as the sequence of the copies. -/
theorem replicated_check : (replicated typeName p count).check v =
    (sequence typeName (List.replicate count p)).check v := by
  show (liftM (expectItems typeName count v) >>= fun items => items.forM p.check : Circuit Unit) =
    (liftM (expectItems typeName (List.replicate count p).length v) >>= fun items =>
      checkAll (List.replicate count p) items)
  rw [List.length_replicate]
  cases hItems : expectItems typeName count v with
  | error e => rfl
  | ok items =>
      obtain ⟨-, hLength⟩ := expectItems_eq_ok.1 hItems
      show items.forM p.check = checkAll (List.replicate count p) items
      rw [checkAll, zip_copies p items hLength]
      show items.forM p.check = forM (items.map (Prod.mk p)) _
      rw [List.forM_map]
      rfl

/-- Copies of a part read what the sequence of the copies reads. -/
theorem replicated_decode : (replicated typeName p count).decode =
    (sequence typeName (List.replicate count p)).decode := by
  funext json
  simp only [replicated, sequence, decodeItems, List.length_replicate]
  cases json.array? with
  | none => rfl
  | some documents =>
      by_cases h : documents.length = count
      · simp only [if_pos h, decodeAll, zip_copies p documents h, List.mapM_map]
        rfl
      · simp only [if_neg h]

theorem replicated_rebuild_eq (fields : List Signal) (aux : List Value) :
    (replicated typeName p count).rebuild fields aux =
      (p.width () >>= fun width => rebuildAll (List.replicate count p)
        (shares (List.replicate count width) fields aux) >>= fun items =>
          pure (Value.array items)) := by
  show (p.width () >>= fun width => rebuildBlocks p width count fields aux >>= fun items =>
    pure (Value.array items)) = _
  simp only [rebuildBlocks_eq]

end

/-! ## Lists of shapes -/

/-- A walk that adds each result to the results so far ends with all results added in turn. -/
theorem walk_eq {M : Type → Type} [Monad M] [LawfulMonad M] {α β γ : Type}
    (walk : γ → List α → M γ) (visit : α → M β) (push : γ → β → γ)
    (hEnd : ∀ out, walk out [] = pure out)
    (hStep : ∀ out x rest, walk out (x :: rest) = visit x >>= fun b => walk (push out b) rest)
    (out : γ) (xs : List α) : walk out xs = List.foldl push out <$> xs.mapM visit := by
  induction xs generalizing out with
  | nil => rw [hEnd, List.mapM_nil, map_pure, List.foldl_nil]
  | cons x rest ih =>
      rw [hStep, List.mapM_cons, map_bind]
      refine congrArg (visit x >>= ·) (funext fun b => ?_)
      rw [ih, map_bind, ← bind_pure_comp]
      simp only [map_pure, List.foldl_cons]

theorem foldl_push {α : Type} (out : Array α) (xs : List α) :
    (xs.foldl Array.push out).toList = out.toList ++ xs := by
  rw [List.foldl_push_eq_append, List.map_id', Array.toList_append, List.toList_toArray]

section

variable (visits : List (Part × Value))

theorem flattenOnto_eq (out : Array Signal) :
    (flattenOnto out visits).map Array.toList =
      (visits.mapM fun visit : Part × Value => visit.1.flatten visit.2).map fun chunks =>
        out.toList ++ chunks.flatten := by
  rw [walk_eq flattenOnto (fun visit => visit.1.flatten visit.2) (· ++ ·) (fun _ => rfl)
    (fun _ _ _ => rfl)]
  cases visits.mapM fun visit : Part × Value => visit.1.flatten visit.2 with
  | error e => rfl
  | ok chunks =>
      refine congrArg Except.ok ?_
      rw [← List.foldl_hom Array.toList fun _ _ => Array.toList_appendList.symm,
        List.foldl_append_eq_append, List.map_id']

theorem auxiliaryOnto_eq (out : Array Value) :
    (auxiliaryOnto out visits).toList =
      out.toList ++ visits.flatMap fun visit : Part × Value => visit.1.auxiliary visit.2 := by
  induction visits generalizing out with
  | nil => rw [auxiliaryOnto, List.flatMap_nil, List.append_nil]
  | cons visit rest ih =>
      rw [auxiliaryOnto, ih, Array.toList_appendList, List.flatMap_cons, List.append_assoc]

theorem inputOnto_eq (out : HashInput) :
    inputOnto out visits =
      (visits.mapM fun visit : Part × Value => visit.1.input visit.2).map fun inputs =>
        out.append (HashInput.concat inputs) := by
  rw [walk_eq inputOnto (fun visit => visit.1.input visit.2) HashInput.append (fun _ => rfl)
    (fun _ _ _ => rfl)]
  cases visits.mapM fun visit : Part × Value => visit.1.input visit.2 with
  | error e => rfl
  | ok inputs => exact congrArg Except.ok (HashInput.foldl_append out inputs)

theorem encodeOnto_eq (out : Array Json) :
    (encodeOnto out visits).map Array.toList =
      (visits.mapM fun visit : Part × Value => visit.1.encode visit.2).map fun documents =>
        out.toList ++ documents := by
  rw [walk_eq encodeOnto (fun visit => visit.1.encode visit.2) Array.push (fun _ => rfl)
    (fun _ _ _ => rfl)]
  cases visits.mapM fun visit : Part × Value => visit.1.encode visit.2 with
  | error e => rfl
  | ok documents => exact congrArg Except.ok (foldl_push out documents)

end

theorem decodeOnto_eq (visits : List (Part × Json)) (out : Array Value) :
    (decodeOnto out visits).map (Option.map Array.toList) =
      (OptionT.run (visits.mapM fun visit : Part × Json =>
        OptionT.mk (visit.1.decode visit.2))).map fun items? =>
          items?.map fun items => out.toList ++ items := by
  have hWalk := walk_eq (fun out visits => OptionT.mk (decodeOnto out visits))
    (fun visit : Part × Json => OptionT.mk (visit.1.decode visit.2)) Array.push (fun _ => rfl)
    (fun _ visit _ => congrArg (visit.1.decode visit.2 >>= ·) (funext fun item? => by
      cases item? <;> rfl)) out visits
  rw [← OptionT.run_mk (decodeOnto out visits), hWalk, OptionT.run_map]
  rcases OptionT.run (visits.mapM _) with e | _ | items
  · rfl
  · rfl
  · exact congrArg (Except.ok ∘ some) (foldl_push out items)

/-- What is rebuilt from slices at running offsets is rebuilt from shares of what lies behind the
offset. -/
theorem rebuildOnto_eq (parts : List Part) (ws : List Width) (fields : List Signal)
    (aux : List Value) (offset : Width) (out : Array Value) :
    (rebuildOnto fields.toArray aux.toArray offset out (parts.zip ws)).map Array.toList =
      (rebuildAll parts
        (shares ws (fields.drop offset.fields) (aux.drop offset.aux))).map fun items =>
          out.toList ++ items := by
  induction parts generalizing ws offset out with
  | nil => exact congrArg Except.ok (List.append_nil _).symm
  | cons p rest ih =>
      cases ws with
      | nil => exact congrArg Except.ok (List.append_nil _).symm
      | cons w ws =>
          rw [List.zip_cons_cons, rebuildOnto, shares_cons, rebuildAll, List.zip_cons_cons,
            List.mapM_cons]
          have hFields : slice fields.toArray offset.fields (offset + w).fields =
              (fields.drop offset.fields).take w.fields := slice_add _ _ _
          have hAux : slice aux.toArray offset.aux (offset + w).aux =
              (aux.drop offset.aux).take w.aux := slice_add _ _ _
          simp only [hFields, hAux]
          cases p.rebuild ((fields.drop offset.fields).take w.fields)
              ((aux.drop offset.aux).take w.aux) with
          | error e => rfl
          | ok item =>
              refine (ih ws (offset + w) (out.push item)).trans ?_
              rw [List.drop_drop, List.drop_drop, Array.toList_push]
              show _ = (rebuildAll rest (shares ws _ _) >>= fun items => pure (item :: items)).map _
              cases rebuildAll rest _ with
              | error e => rfl
              | ok items => exact congrArg Except.ok (List.append_assoc _ _ _)

section

variable (typeName : String) (parts : List Part)

/-- A list of a shape flattens to what the tuple does. -/
theorem listed_flatten (v : Value) :
    (listed typeName parts).flatten v = (sequence typeName parts).flatten v := by
  show (expectItems typeName parts.length v >>= fun items =>
    (flattenOnto #[] (parts.zip items)).map Array.toList) = _
  simp only [flattenOnto_eq]
  rfl

/-- A list of a shape gathers the auxiliary entries that the tuple does. -/
theorem listed_auxiliary (v : Value) :
    (listed typeName parts).auxiliary v = (sequence typeName parts).auxiliary v := by
  cases v with
  | array items =>
      show (auxiliaryOnto #[] (parts.zip items)).toList = _
      rw [auxiliaryOnto_eq]
      rfl
  | signal | bit | record | primitive | opaqueValue => rfl

/-- A list of a shape is rebuilt as the tuple is. -/
theorem listed_rebuild (fields : List Signal) (aux : List Value) :
    (listed typeName parts).rebuild fields aux = (sequence typeName parts).rebuild fields aux := by
  show (widths parts >>= fun ws => rebuildOnto fields.toArray aux.toArray Width.zero #[]
      (parts.zip ws) >>= fun items => pure (Value.array items.toList)) =
    (widths parts >>= fun ws => rebuildAll parts (shares ws fields aux) >>= fun items =>
      pure (Value.array items))
  refine congrArg (widths parts >>= ·) (funext fun ws => ?_)
  have hItems : (rebuildOnto fields.toArray aux.toArray Width.zero #[] (parts.zip ws)).map
      Array.toList = (rebuildAll parts (shares ws fields aux)).map fun items => [] ++ items :=
    rebuildOnto_eq parts ws fields aux Width.zero #[]
  calc
    _ = ((rebuildOnto fields.toArray aux.toArray Width.zero #[] (parts.zip ws)).map
          Array.toList).map Value.array := by
        cases rebuildOnto fields.toArray aux.toArray Width.zero #[] (parts.zip ws) <;> rfl
    _ = _ := by
        rw [hItems]
        cases rebuildAll parts (shares ws fields aux) <;> rfl

/-- A list of a shape is hashed as the tuple is. -/
theorem listed_input (v : Value) :
    (listed typeName parts).input v = (sequence typeName parts).input v := by
  show (expectItems typeName parts.length v >>= fun items =>
    inputOnto .empty (parts.zip items)) = _
  simp only [inputOnto_eq]
  rfl

/-- A list of a shape writes what the tuple writes. -/
theorem listed_encode (v : Value) :
    (listed typeName parts).encode v = (sequence typeName parts).encode v := by
  show (expectItems typeName parts.length v >>= fun items =>
      encodeOnto #[] (parts.zip items) >>= fun documents => pure (Json.array documents.toList)) =
    (expectItems typeName parts.length v >>= fun items => encodeAll parts items >>=
      fun documents => pure (Json.array documents))
  refine congrArg (expectItems typeName parts.length v >>= ·) (funext fun items => ?_)
  have hDocuments : (encodeOnto #[] (parts.zip items)).map Array.toList =
      (encodeAll parts items).map fun documents => [] ++ documents :=
    encodeOnto_eq (parts.zip items) #[]
  calc
    _ = ((encodeOnto #[] (parts.zip items)).map Array.toList).map Json.array := by
        cases encodeOnto #[] (parts.zip items) <;> rfl
    _ = _ := by
        rw [hDocuments]
        cases encodeAll parts items <;> rfl

/-- A list of a shape reads what the tuple reads. -/
theorem listed_decode (json : Json) :
    (listed typeName parts).decode json = (sequence typeName parts).decode json := by
  simp only [listed, sequence, decodeItems]
  cases json.array? with
  | none => rfl
  | some documents =>
      have hItems : (decodeOnto #[] (parts.zip documents)).map (Option.map Array.toList) =
          (decodeAll parts documents).map fun items? => items?.map fun items => [] ++ items :=
        decodeOnto_eq (parts.zip documents) #[]
      refine congrArg (ite _ · _) ?_
      calc
        _ = ((decodeOnto #[] (parts.zip documents)).map (Option.map Array.toList)).map
              (Option.map Value.array) := by
            rcases decodeOnto #[] (parts.zip documents) with e | _ | items <;> rfl
        _ = _ := by
            rw [hItems]
            rcases decodeAll parts documents with e | _ | items <;> rfl

/-- A list of a shape is a tuple. -/
theorem listed_eq_sequence : listed typeName parts = sequence typeName parts := by
  show Part.mk _ _ (listed typeName parts).flatten (listed typeName parts).auxiliary
    (listed typeName parts).rebuild _ (listed typeName parts).input (listed typeName parts).encode
    (listed typeName parts).decode = _
  rw [funext (listed_flatten typeName parts), funext (listed_auxiliary typeName parts),
    funext₂ (listed_rebuild typeName parts), funext (listed_input typeName parts),
    funext (listed_encode typeName parts), funext (listed_decode typeName parts)]
  rfl

end

end Part

end TypedCircuit
