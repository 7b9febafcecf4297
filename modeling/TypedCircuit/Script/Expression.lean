import TypedCircuit.Registry

/-!
# Expressions of scripts

A script writes down values and types. An expression is evaluated at the moment the step
that holds it runs: names of values refer to what earlier steps saved, and a type is
built anew at each mention, so that it captures what is registered then. Only a saved
type keeps what it captured when it was saved.
-/

namespace TypedCircuit.Script

/-! ## Values -/

/-- A value written in a script. -/
inductive ValueExpr where
  /-- A constant boolean. -/
  | bool (value : Bool)
  /-- A constant field element. -/
  | element (value : Element)
  /-- A sequence. -/
  | array (items : List ValueExpr)
  /-- A value that an earlier step saved. -/
  | saved (name : String)
  /-- A host primitive. -/
  | primitive (json : Json)
  /-- A host value. -/
  | opaqueValue (identity : String)
  /-- A record. -/
  | record (typeName? : Option String) (members : List (String × ValueExpr))
  /-- A member of a record. -/
  | member (of : ValueExpr) (name : String)
  /-- An item of an array. -/
  | item (of : ValueExpr) (index : Nat)
  /-- A boolean of a field element, not asserted to be one. -/
  | bitOf (of : ValueExpr)
  /-- The field element of a boolean. -/
  | signalOf (of : ValueExpr)
deriving Inhabited

/-- The part of a value that an expression asks for. -/
def found {α : Type} (expected : String) : Option α → Except Error α
  | some a => .ok a
  | none => .error (.operand expected)

mutual

/-- The value of an expression, given the saved values. -/
def ValueExpr.eval (values : Entries Value) : ValueExpr → Except Error Value
  | .bool value => .ok (.ofBool value)
  | .element value => .ok (.ofElement value)
  | .array items => do return .array (← ValueExpr.evalItems values items)
  | .saved name => found "a saved value" (values.find? name)
  | .primitive json => .ok (.primitive json)
  | .opaqueValue identity => .ok (.opaqueValue identity)
  | .record typeName? members => do
    return .record typeName? (Entries.ofList (← ValueExpr.evalMembers values members))
  | .member of name => do
    let (_, members) ← found "a record" (← of.eval values).record?
    found "a record with the member" (members.find? name)
  | .item of index => do
    let items ← found "an array" (← of.eval values).items?
    found "an array with the item" items[index]?
  | .bitOf of => do return .bit ⟨← found "a field element" (← of.eval values).signal?⟩
  | .signalOf of => do return .signal (← found "a boolean" (← of.eval values).bit?).signal

/-- The values of expressions. -/
def ValueExpr.evalItems (values : Entries Value) :
    List ValueExpr → Except Error (List Value)
  | [] => .ok []
  | e :: rest => do
    let v ← e.eval values
    return v :: (← ValueExpr.evalItems values rest)

/-- The members of a record. -/
def ValueExpr.evalMembers (values : Entries Value) :
    List (String × ValueExpr) → Except Error (List (String × Value))
  | [] => .ok []
  | (name, e) :: rest => do
    let v ← e.eval values
    return (name, v) :: (← ValueExpr.evalMembers values rest)

end

/-! ## Types -/

mutual

/-- A type written in a script. -/
inductive TypeExpr where
  | leaf (type : Leaf)
  | array (element : TypeExpr) (length : Nat)
  | matrix (element : TypeExpr) (rows columns : Nat)
  | tuple (elements : List TypeExpr)
  /-- A composite of the session's registry. -/
  | composite (name : String)
  /-- A composite for which nothing is ever registered. -/
  | unregistered (name : String)
  /-- The type of a shape, with an order of its keys. -/
  | structural (shape : ShapeExpr) (order? : Option (List String))
  /-- A type that an earlier step saved. -/
  | saved (name : String)
  | plain (inner : TypeExpr)
  | misdeclared (claims produces : Nat)

/-- A shape written in a script. -/
inductive ShapeExpr where
  | leaf (type : TypeExpr)
  | array (items : List ShapeExpr)
  | replicate (count : Nat) (element : ShapeExpr)
  | object (members : List (String × ShapeExpr))
  | constant (json : Json)

end

instance : Inhabited TypeExpr := ⟨.leaf .field⟩

instance : Inhabited ShapeExpr := ⟨.constant .null⟩

mutual

/-- Builds a type from what is registered and saved now. -/
def TypeExpr.build (registry : Registry) (types : Entries Descriptor) :
    TypeExpr → Except Error Descriptor
  | .leaf type => .ok (.leaf type)
  | .array element length => do return .array (← element.build registry types) length
  | .matrix element rows columns => do
    return .matrix (← element.build registry types) rows columns
  | .tuple elements => do return .tuple (← TypeExpr.buildAll registry types elements)
  | .composite name => .ok (registry.composite name)
  | .unregistered name => .ok (.unregistered name)
  | .structural shape order? => do
    Descriptor.structural? (← shape.build registry types) order?
  | .saved name => found "a saved type" (types.find? name)
  | .plain inner => do return .plain (← inner.build registry types)
  | .misdeclared claims produces => .ok (.misdeclared claims produces)

/-- Builds types in order. -/
def TypeExpr.buildAll (registry : Registry) (types : Entries Descriptor) :
    List TypeExpr → Except Error (List Descriptor)
  | [] => .ok []
  | t :: rest => do
    let d ← t.build registry types
    return d :: (← TypeExpr.buildAll registry types rest)

/-- Builds a shape, whose leaves keep the widths their types have now. -/
def ShapeExpr.build (registry : Registry) (types : Entries Descriptor) :
    ShapeExpr → Except Error Shape
  | .leaf type => do registry.leafShape (← type.build registry types)
  | .array items => do return .array (← ShapeExpr.buildAll registry types items)
  | .replicate count element => do
    return .replicate count (← element.build registry types)
  | .object members => do
    return .ofMembers (← ShapeExpr.buildMembers registry types members)
  | .constant json => .ok (.constant json)

/-- Builds shapes in order. -/
def ShapeExpr.buildAll (registry : Registry) (types : Entries Descriptor) :
    List ShapeExpr → Except Error (List Shape)
  | [] => .ok []
  | s :: rest => do
    let shape ← s.build registry types
    return shape :: (← ShapeExpr.buildAll registry types rest)

/-- Builds the members of an object in order. -/
def ShapeExpr.buildMembers (registry : Registry) (types : Entries Descriptor) :
    List (String × ShapeExpr) → Except Error (List (String × Shape))
  | [] => .ok []
  | (key, s) :: rest => do
    let shape ← s.build registry types
    return (key, shape) :: (← ShapeExpr.buildMembers registry types rest)

end

end TypedCircuit.Script
