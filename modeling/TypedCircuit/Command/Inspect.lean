import TypedCircuit.Command.Basic
import TypedCircuit.Layout

/-!
# Inspecting a shape

Prints the type of a shape, its size, its kind and its layout, as a table or as a
document.
-/

namespace TypedCircuit.Command

/-- A leaf as a line of the table: its range of elements, its type and its path. -/
def layoutLine (e : LayoutEntry) : String :=
  "  [" ++ Text.padLeft 4 (toString e.offset) ++ ".." ++
    Text.padRight 4 (toString (e.offset + e.size)) ++ "] " ++ Text.padRight 8 e.typeName ++
    " " ++ e.path

/-- A leaf as a document. -/
def layoutJson (e : LayoutEntry) : Json :=
  .ofMembers [("path", .string e.path), ("type", .string e.typeName),
    ("offset", .nat e.offset), ("size", .nat e.size)]

/-- The number of elements of the values of a type of shape documents. -/
def sizeOf (d : ShapeDocument) : Nat := d.shape.width.fields

/-- Prints what a shape looks like. -/
def inspect (shape : File) (json : Bool) : Command Nat := do
  let d ← shapeDocument shape
  let type ← descriptor d
  let entries := Layout.ofDocument d
  if json then
    printJson (.ofMembers [("type_name", .string type.typeName),
      ("size_in_fields", .nat (sizeOf d)), ("kind", .string type.kindName),
      ("layout", .array (entries.map layoutJson))])
  else
    printLine ("type:  " ++ type.typeName)
    printLine ("size:  " ++ toString (sizeOf d))
    printLine ("kind:  " ++ type.kindName)
    entries.forM fun e => printLine (layoutLine e)
  return 0

end TypedCircuit.Command
