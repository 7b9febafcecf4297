import TypedCircuit.Proofs.Codec.Machine
import TypedCircuit.Proofs.Documents.Current

/-!
# Types whose sizes fit on a machine

If all sizes of a type fit on a machine, the machine makes no difference: its codec of the type is
the codec of the type, for whatever values and lists. So no number is ever too large, no slice
reaches beyond its list, and there is room. The counts are verified before anything is taken, by the
very widths that say how much is taken; and a part of a shape meets exactly the width that it
declared.

What is proved of a part, while a type is assembled, is weaker. A part is handed its share, and only
then does it rebuild what it should. `Part.Faithful` says this, and the type that takes exact counts
turns it into an equality.

## Main results

* `Part.rebuildFrom_eq` — slices at a running offset are shares.
* `Part.faithful_replicated` and the like — what assembles parts keeps that they are faithful.
* `Registry.machineCodec_eq` — a type whose sizes fit does on a machine what it does.
-/

namespace TypedCircuit

/-! ## Parts given their share -/

namespace Part

variable {m : Machine} {p q : Part} {parts parts' : List Part}
  {members members' : List (String × Part)} {fields : List Signal} {aux : List Value}

/-- Parts that agree on everything differ at most in what they rebuild. -/
theorem eq_of_agrees (h : ∀ n, Agrees n q p) : { q with rebuild := p.rebuild } = p := by
  have hFlatten : q.flatten = p.flatten := funext fun v => (h v.height).flatten_eq (Nat.le_refl _)
  have hAuxiliary : q.auxiliary = p.auxiliary :=
    funext fun v => (h v.height).auxiliary_eq (Nat.le_refl _)
  have hCheck : q.check = p.check := funext fun v => (h v.height).check_eq (Nat.le_refl _)
  have hInput : q.input = p.input := funext fun v => (h v.height).input_eq (Nat.le_refl _)
  have hEncode : q.encode = p.encode := funext fun v => (h v.height).encode_eq (Nat.le_refl _)
  have hDecode : q.decode = p.decode :=
    funext fun json => (h json.height).decode_eq (Nat.le_refl _)
  rw [(h 0).typeName_eq, (h 0).width_eq, hFlatten, hAuxiliary, hCheck, hInput, hEncode, hDecode]

/-- A part does what another part does, and rebuilds what the other one does from whatever holds its
share. -/
structure Faithful (q p : Part) : Prop where
  agrees (n : Nat) : Agrees n q p
  rebuild_eq {width : Width} (hWidth : p.width () = .ok width) {fields : List Signal}
    {aux : List Value} (hFields : width.fields ≤ fields.length) (hAux : width.aux ≤ aux.length) :
    q.rebuild fields aux = p.rebuild fields aux

theorem Faithful.refl (p : Part) : p.Faithful p := ⟨fun n => .refl n p, fun _ _ _ _ _ => rfl⟩

theorem Faithful.width_eq (h : q.Faithful p) : q.width = p.width := (h.agrees 0).width_eq

/-- The type that takes exactly the counts of a part hands it its share. -/
theorem Faithful.ofPart_eq (h : q.Faithful p) (capabilities : Capabilities) :
    Codec.ofPart q capabilities = Codec.ofPart p capabilities := by
  have hRebuild : Codec.rebuildExactly q = Codec.rebuildExactly p := by
    funext fields aux
    unfold Codec.rebuildExactly
    rw [h.width_eq, (h.agrees 0).typeName_eq]
    cases hWidth : p.width () with
    | error e => rfl
    | ok width =>
        show (if _ then _ else if _ then _ else _) = (if _ then _ else if _ then _ else _)
        by_cases hFields : fields.length = width.fields
        · by_cases hAux : aux.length = width.aux
          · rw [h.rebuild_eq hWidth (Nat.le_of_eq hFields.symm) (Nat.le_of_eq hAux.symm)]
          · rw [if_neg (not_not_intro hFields), if_neg (not_not_intro hFields), if_pos hAux,
              if_pos hAux]
        · rw [if_pos hFields, if_pos hFields]
  calc
    Codec.ofPart q capabilities
        = { Codec.ofPart { q with rebuild := p.rebuild } capabilities with
            rebuild := Codec.rebuildExactly q
            ofFields := fun fields => Codec.rebuildExactly q fields [] } := rfl
    _ = { Codec.ofPart p capabilities with
            rebuild := Codec.rebuildExactly p
            ofFields := fun fields => Codec.rebuildExactly p fields [] } := by
          rw [eq_of_agrees h.agrees, hRebuild]
    _ = Codec.ofPart p capabilities := rfl

theorem forall₂_agrees (h : List.Forall₂ Faithful parts parts') (n : Nat) :
    List.Forall₂ (Agrees n) parts parts' :=
  h.imp fun _ _ hParts => hParts.agrees n

/-- Slices at a running offset are shares of what lies behind the offset. They are in their lists,
and their positions are words. -/
theorem rebuildFrom_eq (h : List.Forall₂ Faithful parts parts') {ws : List Width} {offset : Width}
    (hWidths : List.Forall₂ (fun p w => p.width () = .ok w) parts' ws)
    (hFits : (ws.foldl (· + ·) offset).fitsIn wordLimit = true)
    (hFields : (ws.foldl (· + ·) offset).fields ≤ fields.length)
    (hAux : (ws.foldl (· + ·) offset).aux ≤ aux.length) :
    m.rebuildFrom fields.toArray aux.toArray offset (parts.zip ws) =
      rebuildAll parts' (shares ws (fields.drop offset.fields) (aux.drop offset.aux)) := by
  induction h generalizing ws offset with
  | nil => rfl
  | @cons q p parts parts' hHead _ ih =>
      cases hWidths with
      | @cons _ w _ ws hWidth hRest =>
          have hNext := Width.le_foldl ws (offset + w)
          have hStop : (offset + w).fields ≤ fields.length := Nat.le_trans hNext.1 hFields
          have hAuxStop : (offset + w).aux ≤ aux.length := Nat.le_trans hNext.2 hAux
          rw [Width.add_fields] at hStop
          rw [Width.add_aux] at hAuxStop
          have hShare : w.fields ≤ ((fields.drop offset.fields).take w.fields).length := by
            rw [List.length_take, List.length_drop]
            omega
          have hAuxShare : w.aux ≤ ((aux.drop offset.aux).take w.aux).length := by
            rw [List.length_take, List.length_drop]
            omega
          rw [List.zip_cons_cons, Machine.rebuildFrom,
            m.width_eq (Width.fitsIn_of_le hFits hNext.1 hNext.2)]
          show (m.slice fields.toArray offset.fields (offset.fields + w.fields) >>= fun front =>
            m.slice aux.toArray offset.aux (offset.aux + w.aux) >>= fun auxFront =>
              q.rebuild front auxFront >>= fun v =>
                m.rebuildFrom fields.toArray aux.toArray (offset + w) (parts.zip ws) >>=
                  fun items => pure (v :: items)) = _
          rw [Machine.slice_eq (Nat.le_add_right _ _) hStop,
            Machine.slice_eq (Nat.le_add_right _ _) hAuxStop, slice_add, slice_add,
            ih hRest hFits hFields hAux, shares_cons, rebuildAll_cons, List.drop_drop,
            List.drop_drop]
          show (q.rebuild _ _ >>= _) = _
          rw [hHead.rebuild_eq hWidth hShare hAuxShare]
          rfl

/-- An array whose sizes fit does on a machine what it does. -/
theorem faithful_replicated {w : Width} {count : Nat} (hWidth : p.width () = .ok w)
    (hFits : (Width.times count w).fitsIn m.room = true) (typeName : String) :
    (machineReplicated m typeName p count).Faithful (replicated typeName p count) := by
  have hWords := Width.fitsIn_mono hFits m.room_le
  have hCopies : m.copiesWidth p count = .ok (Width.times count w) := m.copiesWidth_eq hWidth hWords
  have hOwn : (replicated typeName p count).width () = .ok (Width.times count w) := by
    show (p.width ()).map (Width.times count) = _
    rw [hWidth]
    rfl
  refine ⟨fun n => ?_, fun {width} hw {fields aux} hFields hAux => ?_⟩
  · refine (Agrees.refl n (replicated typeName p count)).replace (hCopies.trans hOwn.symm) ?_ _
    intro v _
    refine congrArg (expectItems typeName count v >>= ·) (funext fun items => ?_)
    exact m.reserve_bind hCopies hFits _
  · cases hw.symm.trans hOwn
    show (p.width () >>= fun width =>
        m.rebuildBlocks p width count fields.toArray aux.toArray >>= fun items =>
          pure (Value.array items)) =
      (p.width () >>= fun width => p.rebuildBlocks width count fields aux >>= fun items =>
        pure (Value.array items))
    rw [hWidth]
    show (m.rebuildBlocks p w count fields.toArray aux.toArray >>= _) = _
    rw [m.rebuildBlocks_eq p hWords hFields hAux]
    rfl

/-- What a machine rebuilds of parts one after the other. -/
theorem rebuildFrom_sum (h : List.Forall₂ Faithful parts parts') {ws : List Width}
    (hWidths : widths parts' = .ok ws) (hWords : (Width.sum ws).fitsIn wordLimit = true)
    (hFields : (Width.sum ws).fields ≤ fields.length) (hAux : (Width.sum ws).aux ≤ aux.length) :
    m.rebuildFrom fields.toArray aux.toArray .zero (parts.zip ws) =
      rebuildAll parts' (shares ws fields aux) :=
  rebuildFrom_eq h (mapM_eq_ok.1 hWidths) hWords hFields hAux

section

variable (h : List.Forall₂ Faithful parts parts') {ws : List Width}
  (hWidths : widths parts' = .ok ws)
include h hWidths

theorem sequence_rebuild_faithful (hWords : (Width.sum ws).fitsIn wordLimit = true)
    (hFields : (Width.sum ws).fields ≤ fields.length) (hAux : (Width.sum ws).aux ≤ aux.length)
    (typeName : String) :
    (machineListed m typeName parts).rebuild fields aux =
      (sequence typeName parts').rebuild fields aux := by
  show (widths parts >>= fun ws =>
      m.rebuildFrom fields.toArray aux.toArray .zero (parts.zip ws) >>= fun items =>
        pure (Value.array items)) =
    (widths parts' >>= fun ws => rebuildAll parts' (shares ws fields aux) >>= fun items =>
      pure (Value.array items))
  rw [widths_congr₂ (forall₂_agrees h 0), hWidths]
  show (m.rebuildFrom fields.toArray aux.toArray .zero (parts.zip ws) >>= _) = _
  rw [rebuildFrom_sum h hWidths hWords hFields hAux]
  rfl

/-- A list of a shape whose sizes fit does on a machine what it does. -/
theorem faithful_listed (hWords : (Width.sum ws).fitsIn wordLimit = true) (typeName : String) :
    (machineListed m typeName parts).Faithful (sequence typeName parts') := by
  have hOwn : (sequence typeName parts').width () = .ok (Width.sum ws) :=
    congrArg (Except.map Width.sum) hWidths
  have hTotal : m.total (widths parts) = .ok (Width.sum ws) :=
    m.total_eq ((widths_congr₂ (forall₂_agrees h 0)).trans hWidths) hWords
  refine ⟨fun n => ?_, fun {width} hw {fields aux} hFields hAux => ?_⟩
  · have hAgrees := (agrees_sequence (forall₂_agrees h n) typeName).mono (Nat.le_succ n)
    have hListed : Agrees n (listed typeName parts) (sequence typeName parts') := by
      rw [listed_eq_sequence]
      exact hAgrees
    exact hListed.replace (hTotal.trans hOwn.symm) hListed.flatten_eq _
  · cases hw.symm.trans hOwn
    exact sequence_rebuild_faithful h hWidths hWords hFields hAux typeName

end

/-- A tuple whose sizes fit does on a machine what it does. -/
theorem faithful_sequence {ws : List Width} (hWidths : widths parts = .ok ws)
    (hFits : (Width.sum ws).fitsIn m.room = true) (typeName : String) :
    (machineSequence m typeName parts).Faithful (sequence typeName parts) := by
  have hWords := Width.fitsIn_mono hFits m.room_le
  have hOwn : (sequence typeName parts).width () = .ok (Width.sum ws) :=
    congrArg (Except.map Width.sum) hWidths
  have hTotal : m.total (widths parts) = .ok (Width.sum ws) := m.total_eq hWidths hWords
  refine ⟨fun n => ?_, fun {width} hw {fields aux} hFields hAux => ?_⟩
  · refine (Agrees.refl n (sequence typeName parts)).replace (hTotal.trans hOwn.symm) ?_ _
    intro v _
    refine congrArg (expectItems typeName parts.length v >>= ·) (funext fun items => ?_)
    exact m.reserve_bind hTotal hFits _
  · cases hw.symm.trans hOwn
    exact sequence_rebuild_faithful (List.forall₂_same.2 fun p _ => .refl p) hWidths hWords hFields
      hAux typeName

/-- Members are rebuilt on a machine as they are. -/
theorem machineRebuildMembers_eq
    (h : List.Forall₂ (fun m m' => m.1 = m'.1 ∧ Faithful m.2 m'.2) members members')
    {ws : List Width} (hWidths : memberWidths members' = .ok ws)
    (hWords : (Width.sum ws).fitsIn wordLimit = true)
    (hFields : (Width.sum ws).fields ≤ fields.length) (hAux : (Width.sum ws).aux ≤ aux.length) :
    machineRebuildMembers m members fields aux = rebuildMembers members' fields aux := by
  have hParts := forall₂_of_entries h
  rw [rebuildMembers_eq hWidths]
  rw [memberWidths_eq] at hWidths
  rw [machineRebuildMembers, memberWidths_eq, widths_congr₂ (forall₂_agrees hParts 0), hWidths]
  show (m.rebuildFrom fields.toArray aux.toArray .zero ((members.map Prod.snd).zip ws) >>=
    fun items => pure (Entries.ofList ((members.map Prod.fst).zip items))) = _
  rw [rebuildFrom_sum hParts hWidths hWords hFields hAux, keys_eq_of_forall₂ h]
  cases rebuildAll (members'.map Prod.snd) (shares ws fields aux) <;> rfl

/-- An object of a shape whose sizes fit does on a machine what it does. -/
theorem faithful_object
    (h : List.Forall₂ (fun m m' => m.1 = m'.1 ∧ Faithful m.2 m'.2) members members')
    {ws : List Width} (hWidths : memberWidths members' = .ok ws)
    (hWords : (Width.sum ws).fitsIn wordLimit = true) (typeName : String) :
    (machineObject m typeName members).Faithful (object typeName members') := by
  have hAgree : ∀ n, MembersAgree n members members' := fun n =>
    h.imp fun _ _ hm => ⟨hm.1, hm.2.agrees n⟩
  have hOwn : (object typeName members').width () = .ok (Width.sum ws) :=
    congrArg (Except.map Width.sum) hWidths
  have hTotal : m.total (memberWidths members) = .ok (Width.sum ws) :=
    m.total_eq ((memberWidths_congr₂ (hAgree 0)).trans hWidths) hWords
  refine ⟨fun n => ?_, fun {width} hw {fields aux} hFields hAux => ?_⟩
  · have hObject := (agrees_object (hAgree n) typeName).mono (Nat.le_succ n)
    exact hObject.replace (hTotal.trans hOwn.symm) hObject.flatten_eq _
  · cases hw.symm.trans hOwn
    exact congrArg (Except.map (Value.record none))
      (machineRebuildMembers_eq h hWidths hWords hFields hAux)

/-- There is room for a whole shape whose sizes fit. -/
theorem Faithful.root (h : q.Faithful p) {w : Width} (hWidth : p.width () = .ok w)
    (hFits : w.fitsIn m.room = true) : (machineRoot m q).Faithful p := by
  refine ⟨fun n => ?_, h.rebuild_eq⟩
  have hWidth' : q.width () = .ok w := by rw [h.width_eq, hWidth]
  refine (h.agrees n).replace (congrFun h.width_eq ()) (fun {v} hv => ?_) _
  exact (m.reserve_bind hWidth' hFits _).trans ((h.agrees n).flatten_eq hv)

end Part

/-- A registered type whose members' sizes fit does on a machine what it does. -/
theorem Codec.machineComposite_eq {m : Machine} (name : String) (json : Bool)
    {members : List (String × Codec)} {ws : List Width}
    (hWidths : Part.memberWidths (memberParts members) = .ok ws)
    (hFits : (Width.sum ws).fitsIn m.room = true) :
    machineComposite m name json members = composite name json members := by
  have hWords := Width.fitsIn_mono hFits m.room_le
  have hTotal : m.total (Part.memberWidths (memberParts members)) = .ok (Width.sum ws) :=
    m.total_eq hWidths hWords
  have hWidth : (fun _ : Unit => m.total (Part.memberWidths (memberParts members))) =
      (composite name json members).width := by
    rw [hTotal]
    exact funext fun _ => (congrArg (Except.map Width.sum) hWidths).symm
  have hFlatten : (onMembers name members [] fun lookup =>
      m.total (Part.memberWidths (memberParts members)) >>= fun width =>
        m.reserve width.fields >>= fun _ => Part.flattenMembers lookup (memberParts members)) =
      (composite name json members).flatten := by
    simp only [m.reserve_bind hTotal hFits]
    rfl
  have hRebuild : machineRebuildComposite m name members = rebuildComposite name members := by
    funext fields aux
    unfold machineRebuildComposite rebuildComposite
    rw [hTotal, hWidths]
    show (if _ then _ else if _ then _ else _) = (if _ then _ else if _ then _ else _)
    by_cases hFields : fields.length < (Width.sum ws).fields
    · rw [if_pos hFields, if_pos hFields]
    · by_cases hAux : aux.length = (Width.sum ws).aux
      · rw [Part.machineRebuildMembers_eq (List.forall₂_same.2 fun p _ => ⟨rfl, .refl p.2⟩) hWidths
          hWords (Nat.le_of_not_lt hFields) (Nat.le_of_eq hAux.symm)]
      · rw [if_neg hFields, if_neg hFields, if_pos hAux, if_pos hAux]
  show { composite name json members with
    width := fun _ => m.total (Part.memberWidths (memberParts members))
    flatten := onMembers name members [] fun lookup =>
      m.total (Part.memberWidths (memberParts members)) >>= fun width =>
        m.reserve width.fields >>= fun _ => Part.flattenMembers lookup (memberParts members)
    rebuild := machineRebuildComposite m name members
    ofFields := fun fields => machineRebuildComposite m name members fields [] } = _
  rw [hWidth, hFlatten, hRebuild]
  rfl

/-! ## Types whose sizes fit -/

/-- Names whose sizes fit mean on a machine what they mean. -/
structure Names.Faithful (m : Machine) (f : String → Option Width) (names names' : Names) :
    Prop where
  fit : NamesFit (Width.fitsIn m.room) f names'.width
  composite_eq {name : String} {w : Width} (h : f name = some w) (json : Bool) :
    names.machineComposite m name json = names'.composite name json

theorem Names.machineComposite_eq {m : Machine} {names names' : Names} {name : String} {json : Bool}
    (hWidth : names.width name = names'.width name)
    (hMembers : ∀ size, (names.members size name).map (Codec.machineComposite m name json) =
      (names'.members size name).map (Codec.composite name json)) :
    names.machineComposite m name json = names'.composite name json := by
  rw [Names.machineComposite, Names.composite, hWidth]
  exact congrArg (Codec.deferred name _ _) (funext hMembers)

/-- The widths of types that add up to a width. -/
theorem Descriptor.widths_of_total {names : Names} {ds : List Descriptor} {w : Width}
    (h : Descriptor.totalWidth names.width Width.zero ds = .ok w) :
    ∃ ws, Part.widths ((ds.map fun d : Descriptor => d.codec names).map Codec.part) = .ok ws ∧
      Width.sum ws = w := by
  rw [Descriptor.totalWidth_eq, ← Descriptor.codecs_width] at h
  obtain ⟨ws, hws, hSum⟩ := map_eq_ok.1 h
  refine ⟨ws, ?_, hSum⟩
  rw [Part.widths, List.mapM_map, List.mapM_map]
  exact hws

section

variable {m : Machine} {f : String → Option Width} {names names' : Names}

mutual

/-- A type whose sizes fit does on a machine what it does, as long as names do. -/
theorem Descriptor.machineCodec_eq (h : names.Faithful m f names') :
    ∀ (d : Descriptor) {w : Width},
      d.widthIn (Option.guard (Width.fitsIn m.room)) f = some w →
        d.machineCodec m names = d.codec names'
  | .leaf _, _, _ => rfl
  | .array element length, w, hw => by
      obtain ⟨a, ha, hGuard⟩ := Option.bind_eq_some_iff.1 hw
      obtain ⟨rfl, hFits⟩ := Option.guard_eq_some_iff.1 hGuard
      have hWidth : (element.codec names').part.width () = .ok a :=
        (Descriptor.codec_width names' element).trans
          (Descriptor.width_of_widthIn h.fit element ha).1
      rw [Descriptor.machineCodec, Descriptor.machineCodec_eq h element ha]
      exact (Part.faithful_replicated hWidth hFits _).ofPart_eq _
  | .tuple elements, w, hw => by
      obtain ⟨hTotal, hFits⟩ := Descriptor.width_of_widthIn h.fit (.tuple elements) hw
      obtain ⟨ws, hWidths, rfl⟩ := Descriptor.widths_of_total hTotal
      rw [Descriptor.codec_tuple, Descriptor.machineCodec,
        Descriptor.machineCodecs_eq h elements hw]
      exact (Part.faithful_sequence hWidths hFits _).ofPart_eq _
  | .structural root, w, hw => by
      obtain ⟨rfl, hFits⟩ := Shape.width_of_widthIn h.fit root hw
      have hFaithful := Shape.machinePart_faithful h root hw
      rw [Descriptor.machineCodec, Descriptor.codec]
      exact (hFaithful.root (Shape.part_width names' root) hFits).ofPart_eq _
  | .composite _ json, _, hw => h.composite_eq hw json
  | .unregistered name, _, _ =>
      @Codec.machineComposite_eq m name true [] [] rfl (Width.fitsIn_zero m.room)
  | .plain inner, _, hw => by
      rw [Descriptor.machineCodec, Descriptor.codec, Descriptor.machineCodec_eq h inner hw]
  | .misdeclared claims produces, w, hw => by
      obtain ⟨rfl, hFits⟩ := Option.guard_eq_some_iff.1 hw
      rw [Descriptor.machineCodec, m.width_eq (Width.fitsIn_mono hFits m.room_le)]
      rfl

theorem Descriptor.machineCodecs_eq (h : names.Faithful m f names') :
    ∀ (ds : List Descriptor) {total w : Width},
      Descriptor.totalWidthIn (Option.guard (Width.fitsIn m.room)) f total ds = some w →
        Descriptor.machineCodecs m names ds = ds.map fun d : Descriptor => d.codec names'
  | [], _, _, _ => rfl
  | d :: rest, total, w, hw => by
      obtain ⟨a, ha, hw⟩ := Option.bind_eq_some_iff.1 hw
      obtain ⟨next, -, hw⟩ := Option.bind_eq_some_iff.1 hw
      rw [Descriptor.machineCodecs, List.map_cons, Descriptor.machineCodec_eq h d ha,
        Descriptor.machineCodecs_eq h rest hw]

/-- A shape whose sizes fit does on a machine what it does, for whatever holds its share. -/
theorem Shape.machinePart_faithful (h : names.Faithful m f names') :
    ∀ (s : Shape) {w : Width}, s.widthIn (Option.guard (Width.fitsIn m.room)) f = some w →
      (s.machinePart m names).Faithful (s.part names')
  | .leaf type width, w, hw => by
      obtain ⟨a, ha, hGuard⟩ := Option.bind_eq_some_iff.1 hw
      obtain ⟨rfl, hFits⟩ := Option.guard_eq_some_iff.1 hGuard
      rw [Shape.machinePart, Shape.part, Descriptor.machineCodec_eq h type ha,
        m.width_eq (Width.fitsIn_mono hFits m.room_le)]
      exact .refl _
  | .array items, w, hw => by
      obtain ⟨rfl, hFits⟩ := Shape.width_of_widthIn h.fit (.array items) hw
      obtain ⟨ws, hWidths, hTotal⟩ := Shape.itemWidths names' items
      have hParts : Part.widths (items.map fun s : Shape => s.part names') = .ok ws := by
        rw [Part.widths, List.mapM_map]
        exact hWidths
      have hWords : (Width.sum ws).fitsIn wordLimit = true := by
        rw [Width.sum, hTotal]
        exact Width.fitsIn_mono hFits m.room_le
      rw [Shape.part_array, Shape.machinePart]
      exact Part.faithful_listed (Shape.machineItemParts_faithful h items hw) hParts hWords _
  | .object members, w, hw => by
      obtain ⟨rfl, hFits⟩ := Shape.width_of_widthIn h.fit (.object members) hw
      obtain ⟨ws, hWidths, hTotal⟩ := Shape.memberWidths names' members
      have hParts : Part.memberWidths
          (members.map fun m : String × Shape => (m.1, m.2.part names')) = .ok ws := by
        rw [Part.memberWidths, List.mapM_map]
        exact hWidths
      have hWords : (Width.sum ws).fitsIn wordLimit = true := by
        rw [Width.sum, hTotal]
        exact Width.fitsIn_mono hFits m.room_le
      rw [Shape.part_object, Shape.machinePart]
      exact Part.faithful_object (Shape.machineMemberParts_faithful h members hw) hParts hWords _
  | .constant _, _, _ => .refl _

theorem Shape.machineItemParts_faithful (h : names.Faithful m f names') :
    ∀ (items : List Shape) {total w : Width},
      Shape.itemsWidthIn (Option.guard (Width.fitsIn m.room)) f total items = some w →
        List.Forall₂ Part.Faithful (Shape.machineItemParts m names items)
          (items.map fun s : Shape => s.part names')
  | [], _, _, _ => .nil
  | s :: rest, total, w, hw => by
      obtain ⟨a, ha, hw⟩ := Option.bind_eq_some_iff.1 hw
      obtain ⟨next, -, hw⟩ := Option.bind_eq_some_iff.1 hw
      exact .cons (Shape.machinePart_faithful h s ha) (Shape.machineItemParts_faithful h rest hw)

theorem Shape.machineMemberParts_faithful (h : names.Faithful m f names') :
    ∀ (members : List (String × Shape)) {total w : Width},
      Shape.membersWidthIn (Option.guard (Width.fitsIn m.room)) f total members = some w →
        List.Forall₂ (fun m m' : String × Part => m.1 = m'.1 ∧ m.2.Faithful m'.2)
          (Shape.machineMemberParts m names members)
          (members.map fun m : String × Shape => (m.1, m.2.part names'))
  | [], _, _, _ => .nil
  | (_, s) :: rest, total, w, hw => by
      obtain ⟨a, ha, hw⟩ := Option.bind_eq_some_iff.1 hw
      obtain ⟨next, -, hw⟩ := Option.bind_eq_some_iff.1 hw
      exact .cons ⟨rfl, Shape.machinePart_faithful h s ha⟩
        (Shape.machineMemberParts_faithful h rest hw)

end

end

/-! ## Registered types -/

/-- A total is computed from widths that are computed. -/
theorem Descriptor.exists_widthIn_of_mem {fits : Width → Bool} {f : String → Option Width}
    {ds : List Descriptor} {total w : Width}
    (h : Descriptor.totalWidthIn (Option.guard fits) f total ds = some w) {d : Descriptor}
    (hd : d ∈ ds) : ∃ a, d.widthIn (Option.guard fits) f = some a := by
  induction ds generalizing total with
  | nil => cases hd
  | cons head rest ih =>
      obtain ⟨a, ha, h⟩ := Option.bind_eq_some_iff.1 h
      obtain ⟨next, -, h⟩ := Option.bind_eq_some_iff.1 h
      rcases List.mem_cons.1 hd with rfl | hd
      · exact ⟨a, ha⟩
      · exact ih h hd

namespace Registry

variable {r : Registry} {m : Machine} {d : Descriptor}

/-- The names whose sizes fit on a machine. -/
abbrev fittingWidth (r : Registry) (m : Machine) : String → Option Width :=
  r.checkedWidthOf (Width.fitsIn m.room)

theorem namesFit_machine (r : Registry) (m : Machine) :
    NamesFit (Width.fitsIn m.room) (r.fittingWidth m) r.widthOf :=
  namesFit (Width.fitsIn_zero m.room)

theorem machineWidthOf_eq {name : String} {w : Width} (h : r.fittingWidth m name = some w) :
    r.machineWidthOf m name = r.widthOf name := by
  rw [((r.namesFit_machine m).name_eq h).1]
  exact widthInWithin_of_fits (fun hw => m.width_eq (Width.fitsIn_mono hw m.room_le)) _ h

/-- A name whose sizes fit has the same members on a machine, for any number of steps. -/
theorem machineMembersWithin_eq (steps : Nat) {name : String} {w : Width}
    (h : r.fittingWidth m name = some w) (json : Bool) :
    (r.machineMembersWithin m steps name).map (Codec.machineComposite m name json) =
      (r.membersWithin steps name).map (Codec.composite name json) := by
  induction steps generalizing name w json with
  | zero => rfl
  | succ steps ih =>
      have hNames : Names.Faithful m (r.fittingWidth m)
          ⟨r.machineWidthOf m, fun _ => r.machineMembersWithin m steps⟩
          ⟨r.widthOf, fun _ => r.membersWithin steps⟩ := by
        refine ⟨r.namesFit_machine m, fun hOther json => ?_⟩
        exact Names.machineComposite_eq (machineWidthOf_eq hOther) fun _ => ih hOther json
      have hTotal := checkedWidthOf_unroll h
      have hMembers : (r.schema name).map (fun member => (member.1, member.2.machineCodec m
            ⟨r.machineWidthOf m, fun _ => r.machineMembersWithin m steps⟩)) =
          (r.schema name).map fun member => (member.1, member.2.codec
            ⟨r.widthOf, fun _ => r.membersWithin steps⟩) := by
        refine List.map_congr_left fun member hMember => ?_
        obtain ⟨a, ha⟩ := Descriptor.exists_widthIn_of_mem hTotal (List.mem_map_of_mem hMember)
        rw [Descriptor.machineCodec_eq hNames member.2 ha]
      have hWidth := (r.namesFit_machine m).name_eq h
      obtain ⟨ws, hWidths, rfl⟩ := map_eq_ok.1 (@memberWidths_unroll r name w hWidth.1
        ⟨r.widthOf, fun _ => r.membersWithin steps⟩ rfl)
      show Except.ok (Codec.machineComposite m name json _) = .ok (Codec.composite name json _)
      rw [hMembers, Codec.machineComposite_eq name json hWidths hWidth.2]

theorem names_faithful (r : Registry) (m : Machine) :
    Names.Faithful m (r.fittingWidth m)
      ⟨r.machineWidthOf m, fun size => r.machineMembersWithin m (r.steps size)⟩ r.names := by
  refine ⟨r.namesFit_machine m, fun h json => ?_⟩
  exact Names.machineComposite_eq (machineWidthOf_eq h) fun size =>
    machineMembersWithin_eq (r.steps size) h json

/-- The sizes that fit on a machine are words. -/
theorem Fits.wordWidth (h : r.Fits m d) :
    ∃ width, r.wordWidth d = some width ∧ r.width d = .ok width := by
  obtain ⟨w, hw⟩ := h
  have hWords := checkedWidth_mono (fun hFits => Width.fitsIn_mono hFits m.room_le) hw
  exact ⟨w, hWords, (width_of_wordWidth hWords).1⟩

/-- A type whose sizes fit does on a machine what it does: no number is too large, no slice reaches
beyond its list, and there is room. -/
theorem machineCodec_eq (h : r.Fits m d) : r.machineCodec m d = r.codec d := by
  obtain ⟨w, hw⟩ := h
  exact Descriptor.machineCodec_eq (r.names_faithful m) d hw

end Registry

/-- Where words wrap around, two rows of `2 ^ 63` elements take nothing, and the first of them
reaches beyond its list. -/
example (fault : Error) :
    (Registry.empty.machineCodec (.wrapping wordLimit (Nat.le_refl _) fault)
      (.matrix .field 2 (2 ^ 63))).ofFields [] = .error fault := rfl

end TypedCircuit
