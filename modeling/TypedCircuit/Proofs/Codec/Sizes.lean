import TypedCircuit.Proofs.Codec.Grounding
import TypedCircuit.Proofs.Codec.Items

/-!
# Sizes in machine words

Widths are pairs of natural numbers, and a program counts in words. A size that it computes may pass
the greatest word, also on the way to a total that does not: no copies of something oversized take
nothing, and their size is computed all the same.

Here a width is computed so that every width on the way goes through an operation, which may change
it or refuse it. `Descriptor.widthIn` visits a type as `Descriptor.width` does. It also visits the
types at the leaves of shapes, which have kept their widths, but ask for them again when they are
given their shares.

With the operation that refuses what is too large, a width is found exactly if no size that the type
has to compute is too large. `Registry.wordWidth` and `Registry.sizeInFields` are what a program
finds that counts in words, in fields and auxiliary entries or in fields alone.

## Main results

* `Descriptor.widthIn_of_fits` — where nothing is too large, an operation that keeps what fits
  changes nothing.
* `Registry.width_of_checkedWidth` — a width that was found is the width, and it fits.
* `Registry.checkedWidth_copies` — what an array computes suffices for a tuple of as many copies and
  for the shape of as many leaves.
-/

namespace TypedCircuit

/-! ## Computing widths -/

section

variable {M : Type → Type} [Monad M] (word : Width → M Width) (widthOf : String → M Width)

mutual

/-- The width of a type, where every width that is computed goes through an operation. -/
def Descriptor.widthIn : Descriptor → M Width
  | .leaf type => word type.width
  | .array element length => do word (Width.times length (← element.widthIn))
  | .tuple elements => Descriptor.totalWidthIn Width.zero elements
  | .structural root => root.widthIn
  | .composite name _ => widthOf name
  | .unregistered _ => pure Width.zero
  | .plain inner => inner.widthIn
  | .misdeclared claims _ => word ⟨claims, 0⟩

/-- The width of types, added to a width. -/
def Descriptor.totalWidthIn (total : Width) : List Descriptor → M Width
  | [] => pure total
  | d :: rest => do
    let width ← d.widthIn
    Descriptor.totalWidthIn (← word (total + width)) rest

/-- The width of a shape by the widths its leaves had, which are asked for theirs as well. -/
def Shape.widthIn : Shape → M Width
  | .leaf type width => do
    let _ ← type.widthIn
    word width
  | .array items => Shape.itemsWidthIn Width.zero items
  | .object members => Shape.membersWidthIn Width.zero members
  | .constant _ => pure Width.zero

/-- The width of items, added to a width. -/
def Shape.itemsWidthIn (total : Width) : List Shape → M Width
  | [] => pure total
  | s :: rest => do
    let width ← s.widthIn
    Shape.itemsWidthIn (← word (total + width)) rest

/-- The width of members, added to a width. -/
def Shape.membersWidthIn (total : Width) : List (String × Shape) → M Width
  | [] => pure total
  | (_, s) :: rest => do
    let width ← s.widthIn
    Shape.membersWidthIn (← word (total + width)) rest

end

/-- The width of a name within a number of nested names, where `stuck` tells what becomes of a name
that is nested deeper. -/
def Registry.widthInWithin (r : Registry) (stuck : String → M Width) : Nat → String → M Width
  | 0, name => stuck name
  | depth + 1, name => Descriptor.totalWidthIn word (r.widthInWithin stuck depth) Width.zero
      ((r.schema name).map (·.2))

end

/-! ## Widths that fit -/

/-- The greatest number that a machine word holds, `2 ^ 64 - 1`. -/
def wordLimit : Nat := 0xffffffffffffffff

/-- A width has at most so many elements, and its auxiliary entries are counted in a word. -/
def Width.fitsIn (room : Nat) (width : Width) : Bool :=
  width.fields ≤ room && width.aux ≤ wordLimit

namespace Registry

/-- The width of a name, if every width that is computed for it fits. -/
def checkedWidthOf (r : Registry) (fits : Width → Bool) (name : String) : Option Width :=
  r.widthInWithin (Option.guard fits) (fun _ => none) r.depthBound name

/-- The width of a type, if every width that is computed for it fits. -/
def checkedWidth (r : Registry) (fits : Width → Bool) (d : Descriptor) : Option Width :=
  d.widthIn (Option.guard fits) (r.checkedWidthOf fits)

/-- The width of a type, if words suffice to compute it. -/
def wordWidth (r : Registry) (d : Descriptor) : Option Width :=
  r.checkedWidth (Width.fitsIn wordLimit) d

end Registry

theorem Width.fitsIn_iff {room : Nat} {width : Width} :
    width.fitsIn room = true ↔ width.fields ≤ room ∧ width.aux ≤ wordLimit := by
  simp [Width.fitsIn]

theorem Width.fitsIn_zero (room : Nat) : Width.zero.fitsIn room = true :=
  Width.fitsIn_iff.2 ⟨Nat.zero_le _, Nat.zero_le _⟩

theorem Width.fitsIn_mono {room room' : Nat} {width : Width} (h : width.fitsIn room = true)
    (hRoom : room ≤ room') : width.fitsIn room' = true := by
  rw [Width.fitsIn_iff] at h ⊢
  omega

theorem Width.fitsIn_of_le {room : Nat} {a b : Width} (h : b.fitsIn room = true)
    (hFields : a.fields ≤ b.fields) (hAux : a.aux ≤ b.aux) : a.fitsIn room = true := by
  rw [Width.fitsIn_iff] at h ⊢
  omega

theorem guard_of_fits {fits : Width → Bool} {w : Width} (h : fits w = true) :
    Option.guard fits w = some w := Option.guard_eq_some_iff.2 ⟨rfl, h⟩

section

variable {fits : Width → Bool} {f : String → Option Width}

/-- An operation keeps the widths that fit, and names have the widths that were found. -/
structure KeepsFitting {M : Type → Type} [Monad M] (fits : Width → Bool)
    (f : String → Option Width) (word : Width → M Width) (g : String → M Width) : Prop where
  word_eq {w : Width} (h : fits w = true) : word w = pure w
  name_eq {name : String} {w : Width} (h : f name = some w) : g name = pure w

section

variable {M : Type → Type} [Monad M] [LawfulMonad M] {word : Width → M Width}
  {g : String → M Width}

mutual

/-- Where nothing is too large, an operation that keeps what fits changes nothing. -/
theorem Descriptor.widthIn_of_fits (hKeeps : KeepsFitting fits f word g) :
    ∀ (d : Descriptor) {w : Width}, d.widthIn (Option.guard fits) f = some w →
      d.widthIn word g = pure w
  | .leaf type, w, h => by
      obtain ⟨rfl, hFits⟩ := Option.guard_eq_some_iff.1 h
      exact hKeeps.word_eq hFits
  | .array element length, w, h => by
      obtain ⟨a, ha, h⟩ := Option.bind_eq_some_iff.1 h
      obtain ⟨rfl, hFits⟩ := Option.guard_eq_some_iff.1 h
      rw [Descriptor.widthIn, Descriptor.widthIn_of_fits hKeeps element ha, pure_bind]
      exact hKeeps.word_eq hFits
  | .tuple elements, w, h => Descriptor.totalWidthIn_of_fits hKeeps elements h
  | .structural root, w, h => Shape.widthIn_of_fits hKeeps root h
  | .composite name _, w, h => hKeeps.name_eq h
  | .unregistered _, w, h => by
      cases h
      rfl
  | .plain inner, w, h => Descriptor.widthIn_of_fits hKeeps inner h
  | .misdeclared claims _, w, h => by
      obtain ⟨rfl, hFits⟩ := Option.guard_eq_some_iff.1 h
      exact hKeeps.word_eq hFits

theorem Descriptor.totalWidthIn_of_fits (hKeeps : KeepsFitting fits f word g) :
    ∀ (ds : List Descriptor) {total w : Width},
      Descriptor.totalWidthIn (Option.guard fits) f total ds = some w →
        Descriptor.totalWidthIn word g total ds = pure w
  | [], total, w, h => by
      cases h
      rfl
  | d :: rest, total, w, h => by
      obtain ⟨a, ha, h⟩ := Option.bind_eq_some_iff.1 h
      obtain ⟨next, hNext, h⟩ := Option.bind_eq_some_iff.1 h
      obtain ⟨rfl, hFits⟩ := Option.guard_eq_some_iff.1 hNext
      rw [Descriptor.totalWidthIn, Descriptor.widthIn_of_fits hKeeps d ha, pure_bind,
        hKeeps.word_eq hFits, pure_bind]
      exact Descriptor.totalWidthIn_of_fits hKeeps rest h

theorem Shape.widthIn_of_fits (hKeeps : KeepsFitting fits f word g) :
    ∀ (s : Shape) {w : Width}, s.widthIn (Option.guard fits) f = some w →
      s.widthIn word g = pure w
  | .leaf type width, w, h => by
      obtain ⟨a, ha, h⟩ := Option.bind_eq_some_iff.1 h
      obtain ⟨rfl, hFits⟩ := Option.guard_eq_some_iff.1 h
      rw [Shape.widthIn, Descriptor.widthIn_of_fits hKeeps type ha, pure_bind]
      exact hKeeps.word_eq hFits
  | .array items, w, h => Shape.itemsWidthIn_of_fits hKeeps items h
  | .object members, w, h => Shape.membersWidthIn_of_fits hKeeps members h
  | .constant _, w, h => by
      cases h
      rfl

theorem Shape.itemsWidthIn_of_fits (hKeeps : KeepsFitting fits f word g) :
    ∀ (items : List Shape) {total w : Width},
      Shape.itemsWidthIn (Option.guard fits) f total items = some w →
        Shape.itemsWidthIn word g total items = pure w
  | [], total, w, h => by
      cases h
      rfl
  | s :: rest, total, w, h => by
      obtain ⟨a, ha, h⟩ := Option.bind_eq_some_iff.1 h
      obtain ⟨next, hNext, h⟩ := Option.bind_eq_some_iff.1 h
      obtain ⟨rfl, hFits⟩ := Option.guard_eq_some_iff.1 hNext
      rw [Shape.itemsWidthIn, Shape.widthIn_of_fits hKeeps s ha, pure_bind, hKeeps.word_eq hFits,
        pure_bind]
      exact Shape.itemsWidthIn_of_fits hKeeps rest h

theorem Shape.membersWidthIn_of_fits (hKeeps : KeepsFitting fits f word g) :
    ∀ (members : List (String × Shape)) {total w : Width},
      Shape.membersWidthIn (Option.guard fits) f total members = some w →
        Shape.membersWidthIn word g total members = pure w
  | [], total, w, h => by
      cases h
      rfl
  | (_, s) :: rest, total, w, h => by
      obtain ⟨a, ha, h⟩ := Option.bind_eq_some_iff.1 h
      obtain ⟨next, hNext, h⟩ := Option.bind_eq_some_iff.1 h
      obtain ⟨rfl, hFits⟩ := Option.guard_eq_some_iff.1 hNext
      rw [Shape.membersWidthIn, Shape.widthIn_of_fits hKeeps s ha, pure_bind, hKeeps.word_eq hFits,
        pure_bind]
      exact Shape.membersWidthIn_of_fits hKeeps rest h

end

end

/-- Names have the widths that were found, and these fit. -/
structure NamesFit (fits : Width → Bool) (f : String → Option Width)
    (g : String → Except Error Width) : Prop where
  zero_fits : fits Width.zero = true
  name_eq {name : String} {w : Width} (h : f name = some w) : g name = .ok w ∧ fits w = true

section

variable {g : String → Except Error Width}

mutual

/-- A width that was found is the width, and it fits. -/
theorem Descriptor.width_of_widthIn (hFit : NamesFit fits f g) :
    ∀ (d : Descriptor) {w : Width}, d.widthIn (Option.guard fits) f = some w →
      d.width g = .ok w ∧ fits w = true
  | .leaf type, w, h => by
      obtain ⟨rfl, hFits⟩ := Option.guard_eq_some_iff.1 h
      exact ⟨rfl, hFits⟩
  | .array element length, w, h => by
      obtain ⟨a, ha, h⟩ := Option.bind_eq_some_iff.1 h
      obtain ⟨rfl, hFits⟩ := Option.guard_eq_some_iff.1 h
      rw [Descriptor.width, (Descriptor.width_of_widthIn hFit element ha).1]
      exact ⟨rfl, hFits⟩
  | .tuple elements, w, h => Descriptor.totalWidth_of_widthIn hFit elements hFit.zero_fits h
  | .structural root, w, h => by
      obtain ⟨rfl, hFits⟩ := Shape.width_of_widthIn hFit root h
      exact ⟨rfl, hFits⟩
  | .composite name _, w, h => hFit.name_eq h
  | .unregistered _, w, h => by
      cases h
      exact ⟨rfl, hFit.zero_fits⟩
  | .plain inner, w, h => Descriptor.width_of_widthIn hFit inner h
  | .misdeclared claims _, w, h => by
      obtain ⟨rfl, hFits⟩ := Option.guard_eq_some_iff.1 h
      exact ⟨rfl, hFits⟩

theorem Descriptor.totalWidth_of_widthIn (hFit : NamesFit fits f g) :
    ∀ (ds : List Descriptor) {total w : Width}, fits total = true →
      Descriptor.totalWidthIn (Option.guard fits) f total ds = some w →
        Descriptor.totalWidth g total ds = .ok w ∧ fits w = true
  | [], total, w, hTotal, h => by
      cases h
      exact ⟨rfl, hTotal⟩
  | d :: rest, total, w, hTotal, h => by
      obtain ⟨a, ha, h⟩ := Option.bind_eq_some_iff.1 h
      obtain ⟨next, hNext, h⟩ := Option.bind_eq_some_iff.1 h
      obtain ⟨rfl, hFits⟩ := Option.guard_eq_some_iff.1 hNext
      rw [Descriptor.totalWidth, (Descriptor.width_of_widthIn hFit d ha).1]
      exact Descriptor.totalWidth_of_widthIn hFit rest hFits h

theorem Shape.width_of_widthIn (hFit : NamesFit fits f g) :
    ∀ (s : Shape) {w : Width}, s.widthIn (Option.guard fits) f = some w →
      s.width = w ∧ fits w = true
  | .leaf type width, w, h => by
      obtain ⟨a, -, h⟩ := Option.bind_eq_some_iff.1 h
      obtain ⟨rfl, hFits⟩ := Option.guard_eq_some_iff.1 h
      exact ⟨rfl, hFits⟩
  | .array items, w, h => Shape.itemsWidth_of_widthIn hFit items hFit.zero_fits h
  | .object members, w, h => Shape.membersWidth_of_widthIn hFit members hFit.zero_fits h
  | .constant _, w, h => by
      cases h
      exact ⟨rfl, hFit.zero_fits⟩

theorem Shape.itemsWidth_of_widthIn (hFit : NamesFit fits f g) :
    ∀ (items : List Shape) {total w : Width}, fits total = true →
      Shape.itemsWidthIn (Option.guard fits) f total items = some w →
        Shape.itemsWidth total items = w ∧ fits w = true
  | [], total, w, hTotal, h => by
      cases h
      exact ⟨rfl, hTotal⟩
  | s :: rest, total, w, hTotal, h => by
      obtain ⟨a, ha, h⟩ := Option.bind_eq_some_iff.1 h
      obtain ⟨next, hNext, h⟩ := Option.bind_eq_some_iff.1 h
      obtain ⟨rfl, hFits⟩ := Option.guard_eq_some_iff.1 hNext
      rw [Shape.itemsWidth, (Shape.width_of_widthIn hFit s ha).1]
      exact Shape.itemsWidth_of_widthIn hFit rest hFits h

theorem Shape.membersWidth_of_widthIn (hFit : NamesFit fits f g) :
    ∀ (members : List (String × Shape)) {total w : Width}, fits total = true →
      Shape.membersWidthIn (Option.guard fits) f total members = some w →
        Shape.membersWidth total members = w ∧ fits w = true
  | [], total, w, hTotal, h => by
      cases h
      exact ⟨rfl, hTotal⟩
  | (_, s) :: rest, total, w, hTotal, h => by
      obtain ⟨a, ha, h⟩ := Option.bind_eq_some_iff.1 h
      obtain ⟨next, hNext, h⟩ := Option.bind_eq_some_iff.1 h
      obtain ⟨rfl, hFits⟩ := Option.guard_eq_some_iff.1 hNext
      rw [Shape.membersWidth, (Shape.width_of_widthIn hFit s ha).1]
      exact Shape.membersWidth_of_widthIn hFit rest hFits h

end

end

end

/-! ## Registered types -/

namespace Registry

variable {r : Registry} {fits fits' : Width → Bool} {d : Descriptor} {width : Width} {n : Nat}

/-- A width that fits is found through an operation that keeps what fits, within as many names. -/
theorem widthInWithin_of_fits {M : Type → Type} [Monad M] [LawfulMonad M]
    {word : Width → M Width} (hWord : ∀ {w}, fits w = true → word w = pure w)
    (stuck : String → M Width) {depth : Nat} {name : String}
    (h : r.widthInWithin (Option.guard fits) (fun _ => none) depth name = some width) :
    r.widthInWithin word stuck depth name = pure width := by
  induction depth generalizing name width with
  | zero => cases h
  | succ depth ih => exact Descriptor.totalWidthIn_of_fits ⟨hWord, ih⟩ _ h

/-- A width that is found is found within any greater number of names. -/
theorem widthInWithin_succ {depth : Nat} {name : String}
    (h : r.widthInWithin (Option.guard fits) (fun _ => none) depth name = some width) :
    r.widthInWithin (Option.guard fits) (fun _ => none) (depth + 1) name = some width := by
  induction depth generalizing name width with
  | zero => cases h
  | succ depth ih => exact Descriptor.totalWidthIn_of_fits ⟨guard_of_fits, ih⟩ _ h

theorem widthWithin_of_checked (hZero : fits Width.zero = true) {depth : Nat} {name : String}
    (h : r.widthInWithin (Option.guard fits) (fun _ => none) depth name = some width) :
    r.widthWithin depth name = .ok width ∧ fits width = true := by
  induction depth generalizing name width with
  | zero => cases h
  | succ depth ih => exact Descriptor.totalWidth_of_widthIn ⟨hZero, ih⟩ _ hZero h

/-- What is computed for a name is computed for its members, and adds up. -/
theorem checkedWidthOf_unroll {name : String} (h : r.checkedWidthOf fits name = some width) :
    Descriptor.totalWidthIn (Option.guard fits) (r.checkedWidthOf fits) Width.zero
      ((r.schema name).map (·.2)) = some width :=
  widthInWithin_succ h

theorem namesFit (hZero : fits Width.zero = true) :
    NamesFit fits (r.checkedWidthOf fits) r.widthOf :=
  ⟨hZero, widthWithin_of_checked hZero⟩

/-- A width that was found is the width, and it fits. -/
theorem width_of_checkedWidth (hZero : fits Width.zero = true)
    (h : r.checkedWidth fits d = some width) : r.width d = .ok width ∧ fits width = true :=
  Descriptor.width_of_widthIn (namesFit hZero) d h

theorem width_of_wordWidth (h : r.wordWidth d = some width) :
    r.width d = .ok width ∧ width.fields ≤ wordLimit ∧ width.aux ≤ wordLimit := by
  have hWidth := width_of_checkedWidth (Width.fitsIn_zero wordLimit) h
  exact ⟨hWidth.1, Width.fitsIn_iff.1 hWidth.2⟩

/-- What fits in little room fits in more. -/
theorem checkedWidth_mono (hFits : ∀ {w}, fits w = true → fits' w = true)
    (h : r.checkedWidth fits d = some width) : r.checkedWidth fits' d = some width := by
  refine Descriptor.widthIn_of_fits ⟨fun hw => guard_of_fits (hFits hw), fun hName => ?_⟩ d h
  exact widthInWithin_of_fits (fun hw => guard_of_fits (hFits hw)) _ hName

end Registry

/-! ## Copies -/

section

variable {room n : Nat} {f : String → Option Width} {w total : Width}

private theorem add_times_zero (total w : Width) : total + Width.times 0 w = total := by
  have hCount (a k : Nat) : a + 0 * k = a := by rw [Nat.zero_mul, Nat.add_zero]
  exact Width.ext (hCount _ _) (hCount _ _)

private theorem add_times_succ (total w : Width) (n : Nat) :
    total + w + Width.times n w = total + Width.times (n + 1) w := by
  have hCount (a k : Nat) : a + k + n * k = a + (n + 1) * k := by
    rw [Nat.succ_mul]
    omega
  exact Width.ext (hCount _ _) (hCount _ _)

private theorem fitsIn_next (h : (total + Width.times (n + 1) w).fitsIn room = true) :
    (total + w).fitsIn room = true ∧ (total + w + Width.times n w).fitsIn room = true := by
  rw [← add_times_succ] at h
  exact ⟨Width.fitsIn_of_le h (Nat.le_add_right _ _) (Nat.le_add_right _ _), h⟩

theorem Descriptor.totalWidthIn_replicate {d : Descriptor}
    (h : d.widthIn (Option.guard (Width.fitsIn room)) f = some w)
    (hFits : (total + Width.times n w).fitsIn room = true) :
    Descriptor.totalWidthIn (Option.guard (Width.fitsIn room)) f total (List.replicate n d) =
      some (total + Width.times n w) := by
  induction n generalizing total with
  | zero => exact congrArg some (add_times_zero total w).symm
  | succ n ih =>
      obtain ⟨hNext, hRest⟩ := fitsIn_next hFits
      rw [List.replicate_succ, Descriptor.totalWidthIn, h, ← add_times_succ]
      show (Option.guard _ (total + w) >>= _) = _
      rw [guard_of_fits hNext]
      exact ih hRest

theorem Shape.itemsWidthIn_replicate {s : Shape}
    (h : s.widthIn (Option.guard (Width.fitsIn room)) f = some w)
    (hFits : (total + Width.times n w).fitsIn room = true) :
    Shape.itemsWidthIn (Option.guard (Width.fitsIn room)) f total (List.replicate n s) =
      some (total + Width.times n w) := by
  induction n generalizing total with
  | zero => exact congrArg some (add_times_zero total w).symm
  | succ n ih =>
      obtain ⟨hNext, hRest⟩ := fitsIn_next hFits
      rw [List.replicate_succ, Shape.itemsWidthIn, h, ← add_times_succ]
      show (Option.guard _ (total + w) >>= _) = _
      rw [guard_of_fits hNext]
      exact ih hRest

end

/-- What an array computes suffices for a tuple of as many copies and for the shape of as many
leaves. -/
theorem Registry.checkedWidth_copies {r : Registry} {room n : Nat} {d : Descriptor} {width : Width}
    (h : r.checkedWidth (Width.fitsIn room) (.array d n) = some width) {w : Width}
    (hOwn : r.width d = .ok w) :
    r.checkedWidth (Width.fitsIn room) (.tuple (List.replicate n d)) = some width ∧
      r.checkedWidth (Width.fitsIn room) (.structural (.replicate n (.leaf d w))) = some width := by
  obtain ⟨a, ha, hGuard⟩ := Option.bind_eq_some_iff.1 h
  obtain ⟨rfl, hFits⟩ := Option.guard_eq_some_iff.1 hGuard
  have hElement := width_of_checkedWidth (Width.fitsIn_zero room) ha
  cases hElement.1.symm.trans hOwn
  have hZero : Width.zero + Width.times n w = Width.times n w :=
    Width.ext (Nat.zero_add _) (Nat.zero_add _)
  rw [← hZero] at hFits ⊢
  refine ⟨Descriptor.totalWidthIn_replicate ha hFits, Shape.itemsWidthIn_replicate ?_ hFits⟩
  show (d.widthIn _ _ >>= fun _ => Option.guard _ w) = some w
  rw [ha]
  exact guard_of_fits hElement.2

end TypedCircuit
