import TypedCircuit.Proofs.Codec.Agreement
import TypedCircuit.Proofs.Codec.Sizes

/-!
# Machines

A codec counts in natural numbers, takes shares from the front of what is left, and builds results
of any length. A program does this on a machine. It computes sizes and indices in words, which may
not hold them; it slices its lists, which may end before the slice does; and it reserves room for
elements before it looks at the first of them, which may be more room than there is.

A machine tells what becomes of each of the three. On a *checking* machine a number that is no word
is a fault; on a *wrapping* machine it wraps around, and the program goes on with another number.
`Registry.machineCodec` is the codec of a type on a machine. Both counts of a width are computed
together there, also where a program asks for one of them only.

The sizes of a type may fit, which `Registry.Fits` says of all sizes that are computed on the way.
Then no number is ever too large. What follows from that for a whole type is in the next module;
here it is shown for the operations of a machine.

## Main results

* `Machine.sum_eq`, `Machine.copiesWidth_eq` — sizes that fit are computed within words.
* `Machine.rebuildBlocks_eq` — the blocks of an array are in its lists.
-/

namespace TypedCircuit

/-! ## Machines -/

/-- How a program counts, and what becomes of it where it cannot go on. -/
structure Machine where
  /-- The word that is left of a number. -/
  word : Nat → Except Error Nat
  word_eq {n : Nat} (h : n ≤ wordLimit) : word n = .ok n
  /-- The greatest number of elements that room can be reserved for. -/
  room : Nat
  room_le : room ≤ wordLimit
  /-- What ends a program that reaches beyond a list or for more room. -/
  fault : Error

namespace Machine

/-- A machine on which a number that is no word is a fault. -/
def checking (room : Nat) (h : room ≤ wordLimit) (fault : Error) : Machine where
  word n := if n ≤ wordLimit then .ok n else .error fault
  word_eq hn := if_pos hn
  room
  room_le := h
  fault

/-- A machine on which numbers wrap around. -/
def wrapping (room : Nat) (h : room ≤ wordLimit) (fault : Error) : Machine where
  word n := .ok (n % (wordLimit + 1))
  word_eq hn := congrArg Except.ok (Nat.mod_eq_of_lt (Nat.lt_succ_of_le hn))
  room
  room_le := h
  fault

/-- The words that are left of a width. -/
def width (m : Machine) (w : Width) : Except Error Width := do
  return ⟨← m.word w.fields, ← m.word w.aux⟩

/-- The widths of parts, added to a width. -/
def sum (m : Machine) (total : Width) : List Width → Except Error Width
  | [] => .ok total
  | w :: rest => do m.sum (← m.width (total + w)) rest

/-- The width of copies of a part. -/
def copiesWidth (m : Machine) (p : Part) (count : Nat) : Except Error Width := do
  m.width (.times count (← p.width ()))

/-- The total of widths, if there are any. -/
def total (m : Machine) (widths : Except Error (List Width)) : Except Error Width := do
  m.sum .zero (← widths)

/-- Reserves room for a number of elements. -/
def reserve (m : Machine) (count : Nat) : Except Error Unit :=
  if count ≤ m.room then .ok () else .error m.fault

/-- What stands from one position of a sequence up to another one, if both are in it. -/
def slice {α : Type} (m : Machine) (xs : Array α) (start stop : Nat) : Except Error (List α) :=
  if start ≤ stop ∧ stop ≤ xs.size then .ok (Part.slice xs start stop) else .error m.fault

/-- The items of an array, each from the slices at its index. -/
def rebuildBlocks (m : Machine) (p : Part) (width : Width) (count : Nat) (fields : Array Signal)
    (aux : Array Value) : Except Error (List Value) :=
  (List.range count).mapM fun i => do
    let start ← m.width (.times i width)
    let stop ← m.width (.times (i + 1) width)
    p.rebuild (← m.slice fields start.fields stop.fields) (← m.slice aux start.aux stop.aux)

/-- The items of parts, each from the slices at the offset that the widths before it add up to. -/
def rebuildFrom (m : Machine) (fields : Array Signal) (aux : Array Value) (offset : Width) :
    List (Part × Width) → Except Error (List Value)
  | [] => .ok []
  | (p, width) :: rest => do
    let next ← m.width (offset + width)
    let v ← p.rebuild (← m.slice fields offset.fields next.fields)
      (← m.slice aux offset.aux next.aux)
    let items ← m.rebuildFrom fields aux next rest
    return v :: items

end Machine

/-! ## Codecs on a machine -/

namespace Part

/-- An array on a machine. -/
def machineReplicated (m : Machine) (typeName : String) (p : Part) (count : Nat) : Part :=
  { replicated typeName p count with
    width := fun _ => m.copiesWidth p count
    flatten := fun v => do
      let items ← expectItems typeName count v
      let width ← m.copiesWidth p count
      m.reserve width.fields
      return (← items.mapM p.flatten).flatten
    rebuild := fun fields aux => do
      let width ← p.width ()
      return .array (← m.rebuildBlocks p width count fields.toArray aux.toArray) }

/-- A tuple on a machine. -/
def machineSequence (m : Machine) (typeName : String) (parts : List Part) : Part :=
  { sequence typeName parts with
    width := fun _ => m.total (widths parts)
    flatten := fun v => do
      let items ← expectItems typeName parts.length v
      let width ← m.total (widths parts)
      m.reserve width.fields
      flattenAll parts items
    rebuild := fun fields aux => do
      let parts := parts.zip (← widths parts)
      return .array (← m.rebuildFrom fields.toArray aux.toArray .zero parts) }

/-- A list of a shape on a machine. Room is reserved for the whole shape. -/
def machineListed (m : Machine) (typeName : String) (parts : List Part) : Part :=
  { listed typeName parts with
    width := fun _ => m.total (widths parts)
    rebuild := fun fields aux => do
      let parts := parts.zip (← widths parts)
      return .array (← m.rebuildFrom fields.toArray aux.toArray .zero parts) }

/-- The members of slices. -/
def machineRebuildMembers (m : Machine) (members : List (String × Part)) (fields : List Signal)
    (aux : List Value) : Except Error (Entries Value) := do
  let parts := (members.map Prod.snd).zip (← memberWidths members)
  let items ← m.rebuildFrom fields.toArray aux.toArray .zero parts
  return Entries.ofList ((members.map Prod.fst).zip items)

/-- An object of a shape on a machine. -/
def machineObject (m : Machine) (typeName : String) (members : List (String × Part)) : Part :=
  { object typeName members with
    width := fun _ => m.total (memberWidths members)
    rebuild := fun fields aux =>
      (machineRebuildMembers m members fields aux).map (.record none) }

/-- A whole shape on a machine. Room is reserved before the value is looked at. -/
def machineRoot (m : Machine) (p : Part) : Part :=
  { p with
    flatten := fun v => do
      let width ← p.width ()
      m.reserve width.fields
      p.flatten v }

end Part

namespace Codec

/-- The value of a composite's elements and auxiliary entries on a machine. -/
def machineRebuildComposite (m : Machine) (name : String) (members : List (String × Codec))
    (fields : List Signal) (aux : List Value) : Except Error Value := do
  let width ← m.total (Part.memberWidths (memberParts members))
  if fields.length < width.fields then
    throw (.elements name width.fields fields.length)
  else if aux.length ≠ width.aux then throw (.auxiliary name width.aux aux.length)
  else
    (Part.machineRebuildMembers m (memberParts members) fields aux).map (.record (some name))

/-- A registered type on a machine. -/
def machineComposite (m : Machine) (name : String) (json : Bool)
    (members : List (String × Codec)) : Codec :=
  { composite name json members with
    width := fun _ => m.total (Part.memberWidths (memberParts members))
    flatten := onMembers name members [] fun lookup => do
      let width ← m.total (Part.memberWidths (memberParts members))
      m.reserve width.fields
      Part.flattenMembers lookup (memberParts members)
    rebuild := machineRebuildComposite m name members
    ofFields := fun fields => machineRebuildComposite m name members fields [] }

end Codec

/-- A mention of a registered type on a machine. -/
def Names.machineComposite (m : Machine) (names : Names) (name : String) (json : Bool) : Codec :=
  Codec.deferred name (fun _ => names.width name) ⟨true, json⟩ fun size =>
    (names.members size name).map (Codec.machineComposite m name json)

mutual

/-- The codec of a type on a machine. -/
def Descriptor.machineCodec (m : Machine) (names : Names) : Descriptor → Codec
  | .leaf type => type.codec
  | .array element length =>
    let c := element.machineCodec m names
    Codec.ofPart (Part.machineReplicated m (Descriptor.array element length).typeName c.part
      length) c.capabilities
  | .tuple elements =>
    let cs := Descriptor.machineCodecs m names elements
    Codec.ofPart (Part.machineSequence m (Descriptor.tuple elements).typeName (cs.map Codec.part))
      ⟨cs.all (·.capabilities.hashInput), cs.all (·.capabilities.json)⟩
  | .structural root =>
    Codec.ofPart (Part.machineRoot m (root.machinePart m names)) ⟨true, root.supportsJson⟩
  | .composite name json => names.machineComposite m name json
  | .unregistered name => Codec.machineComposite m name true []
  | .plain inner => Codec.plain (Descriptor.plain inner).typeName (inner.machineCodec m names)
  | .misdeclared claims produces =>
    { Codec.misdeclared (Descriptor.misdeclared claims produces).typeName claims produces with
      width := fun _ => m.width ⟨claims, 0⟩ }

/-- The codecs of types on a machine. -/
def Descriptor.machineCodecs (m : Machine) (names : Names) : List Descriptor → List Codec
  | [] => []
  | d :: rest => d.machineCodec m names :: Descriptor.machineCodecs m names rest

/-- The part of a shape on a machine. -/
def Shape.machinePart (m : Machine) (names : Names) : Shape → Part
  | .leaf type width =>
    { (type.machineCodec m names).part with width := fun _ => m.width width }
  | .array items =>
    Part.machineListed m (Shape.array items).typeName (Shape.machineItemParts m names items)
  | .object members =>
    Part.machineObject m (Shape.object members).typeName
      (Shape.machineMemberParts m names members)
  | .constant json => Part.constant (Shape.constant json).typeName json

/-- The parts of items on a machine. -/
def Shape.machineItemParts (m : Machine) (names : Names) : List Shape → List Part
  | [] => []
  | s :: rest => s.machinePart m names :: Shape.machineItemParts m names rest

/-- The parts of members on a machine. -/
def Shape.machineMemberParts (m : Machine) (names : Names) :
    List (String × Shape) → List (String × Part)
  | [] => []
  | (key, s) :: rest => (key, s.machinePart m names) :: Shape.machineMemberParts m names rest

end

namespace Registry

/-- The width of a name on a machine. -/
def machineWidthOf (r : Registry) (m : Machine) : String → Except Error Width :=
  r.widthInWithin m.width (fun name => .error (.recursiveType name)) r.depthBound

/-- The codecs of the members of a name on a machine. -/
def machineMembersWithin (r : Registry) (m : Machine) : Nat → String → Except Error Members
  | 0, name => .error (.recursiveType name)
  | steps + 1, name =>
    .ok ((r.schema name).map fun (field, d) =>
      (field, d.machineCodec m ⟨r.machineWidthOf m, fun _ => r.machineMembersWithin m steps⟩))

/-- The codec of a type on a machine. -/
def machineCodec (r : Registry) (m : Machine) (d : Descriptor) : Codec :=
  d.machineCodec m ⟨r.machineWidthOf m, fun size => r.machineMembersWithin m (r.steps size)⟩

/-- Every size that is computed for a type fits on a machine. -/
def Fits (r : Registry) (m : Machine) (d : Descriptor) : Prop :=
  ∃ width, r.checkedWidth (Width.fitsIn m.room) d = some width

end Registry

/-! ## Words that suffice -/

theorem Width.le_foldl (ws : List Width) (total : Width) :
    total.fields ≤ (ws.foldl (· + ·) total).fields ∧ total.aux ≤ (ws.foldl (· + ·) total).aux := by
  rw [Width.foldl_eq]
  exact ⟨Nat.le_add_right _ _, Nat.le_add_right _ _⟩

namespace Machine

variable {m : Machine}

theorem width_eq {w : Width} (h : w.fitsIn wordLimit = true) : m.width w = .ok w := by
  have hBoth := Width.fitsIn_iff.1 h
  rw [width, m.word_eq hBoth.1, m.word_eq hBoth.2]
  rfl

/-- Widths of which the total is made of words are added up within words. -/
theorem sum_eq {ws : List Width} {total : Width}
    (h : (ws.foldl (· + ·) total).fitsIn wordLimit = true) :
    m.sum total ws = .ok (ws.foldl (· + ·) total) := by
  induction ws generalizing total with
  | nil => rfl
  | cons w rest ih =>
      have hNext := Width.le_foldl rest (total + w)
      rw [sum, m.width_eq (Width.fitsIn_of_le h hNext.1 hNext.2)]
      exact ih h

theorem copiesWidth_eq {p : Part} {w : Width} {count : Nat} (hWidth : p.width () = .ok w)
    (h : (Width.times count w).fitsIn wordLimit = true) :
    m.copiesWidth p count = .ok (Width.times count w) := by
  rw [copiesWidth, hWidth]
  exact m.width_eq h

theorem total_eq {widths : Except Error (List Width)} {ws : List Width} (hWidths : widths = .ok ws)
    (h : (Width.sum ws).fitsIn wordLimit = true) : m.total widths = .ok (Width.sum ws) := by
  rw [total, hWidths]
  exact m.sum_eq h

/-- There is room for the elements of a width that fits. -/
theorem reserve_bind {α : Type} {x : Except Error Width} {w : Width} (hWidth : x = .ok w)
    (h : w.fitsIn m.room = true) (next : Except Error α) :
    (x >>= fun width => m.reserve width.fields >>= fun _ => next) = next := by
  have hRoom : m.reserve w.fields = .ok () := if_pos (Width.fitsIn_iff.1 h).1
  rw [hWidth]
  show (m.reserve w.fields >>= fun _ => next) = next
  rw [hRoom]
  rfl

theorem slice_eq {α : Type} {xs : List α} {start stop : Nat} (hStart : start ≤ stop)
    (hStop : stop ≤ xs.length) :
    m.slice xs.toArray start stop = .ok (Part.slice xs.toArray start stop) :=
  if_pos ⟨hStart, hStop⟩

/-- The blocks of an array are in its lists, and its indices are words. -/
theorem rebuildBlocks_eq (p : Part) {width : Width} {count : Nat} {fields : List Signal}
    {aux : List Value} (h : (Width.times count width).fitsIn wordLimit = true)
    (hFields : (Width.times count width).fields ≤ fields.length)
    (hAux : (Width.times count width).aux ≤ aux.length) :
    m.rebuildBlocks p width count fields.toArray aux.toArray =
      p.rebuildBlocks width count fields aux := by
  refine mapM_congr₂ (List.forall₂_same.2 fun i hi => ?_)
  have hStart (k : Nat) : i * k ≤ (i + 1) * k := Nat.mul_le_mul_right k (Nat.le_succ i)
  have hStop (k : Nat) : (i + 1) * k ≤ count * k := Nat.mul_le_mul_right k (List.mem_range.1 hi)
  have hBefore : (Width.times i width).fitsIn wordLimit = true :=
    Width.fitsIn_of_le h (Nat.le_trans (hStart _) (hStop _)) (Nat.le_trans (hStart _) (hStop _))
  rw [m.width_eq hBefore, m.width_eq (Width.fitsIn_of_le h (hStop _) (hStop _))]
  show (m.slice fields.toArray (i * width.fields) ((i + 1) * width.fields) >>= fun front =>
    m.slice aux.toArray (i * width.aux) ((i + 1) * width.aux) >>= fun auxFront =>
      p.rebuild front auxFront) = _
  rw [slice_eq (hStart _) (Nat.le_trans (hStop _) hFields),
    slice_eq (hStart _) (Nat.le_trans (hStop _) hAux)]
  rfl

end Machine

end TypedCircuit
