import TypedCircuit.ShapeDocument

/-!
# The layout of a shape

The layout lists the leaves of a shape in the order of flattening, each with the keys and
positions that lead to it, the name of its type, where its elements start and how many
there are. Constants take no elements and are not listed.

Keys and positions are joined by slashes; the path of a shape that is a leaf itself is a
single slash.
-/

namespace TypedCircuit

/-- A leaf of a shape. -/
structure LayoutEntry where
  path : String
  typeName : String
  offset : Nat
  size : Nat
deriving DecidableEq

/-- The leaves found so far, the latest first, and where the next one starts. -/
structure Layout where
  entries : List LayoutEntry
  next : Nat

namespace Layout

/-- The layout before the first leaf. -/
def start : Layout := ⟨[], 0⟩

/-- Adds a leaf. -/
def add (layout : Layout) (path typeName : String) (size : Nat) : Layout :=
  ⟨⟨if path.isEmpty then "/" else path, typeName, layout.next, size⟩ :: layout.entries,
    layout.next + size⟩

mutual

/-- Adds the leaves of a shape that stands at a path. -/
def walk (path : String) (layout : Layout) : Shape → Layout
  | .leaf type width => layout.add path type.typeName width.fields
  | .array items => walkItems path 0 layout items
  | .object members => walkMembers path layout members
  | .constant _ => layout

/-- Adds the leaves of items from a position on. -/
def walkItems (path : String) (position : Nat) (layout : Layout) : List Shape → Layout
  | [] => layout
  | s :: rest =>
    walkItems path (position + 1) (walk (path ++ "/" ++ toString position) layout s) rest

/-- Adds the leaves of members. -/
def walkMembers (path : String) (layout : Layout) : List (String × Shape) → Layout
  | [] => layout
  | (key, s) :: rest => walkMembers path (walk (path ++ "/" ++ key) layout s) rest

end

/-- The leaves of a shape document, in the order of flattening. -/
def ofDocument (d : ShapeDocument) : List LayoutEntry :=
  let layout := match d.shape, d.order? with
    | .object members, some order =>
      walkMembers "" start (order.filterMap fun key =>
        (Entries.find? members key).map (key, ·))
    | shape, _ => walk "" start shape
  layout.entries.reverse

end Layout

end TypedCircuit
