import TypedCircuit.Codec.Basic

/-!
# Arguments of entry points

An entry point of a circuit takes its arguments as one sequence of elements and a list of
auxiliary data for each argument. Arguments are laid out first to last. They are read
back from the end of the sequence, last argument first, each taking as many elements as
its type has; nothing may be left over.

A type takes part in two ways. `direct` carries the auxiliary data of its values along,
and `lifted` does without, which suits types that have none.
-/

namespace TypedCircuit

/-- A type as the type of an argument. -/
inductive EntryType (type : Type) where
  /-- Values come with their auxiliary data. -/
  | direct (t : type)
  /-- Values come without auxiliary data. -/
  | lifted (t : type)

namespace EntryType

/-- The underlying type. -/
def type {α : Type} : EntryType α → α
  | .direct t => t
  | .lifted t => t

/-- The auxiliary data that goes with an argument. -/
def auxiliary (t : EntryType Codec) (v : Value) : List Value :=
  match t with
  | .direct c => c.auxiliary v
  | .lifted _ => []

/-- The value of elements and auxiliary data; a lifted type ignores the latter. -/
def rebuild (t : EntryType Codec) (fields : List Signal) (aux : List Value) :
    Except Error Value :=
  match t with
  | .direct c => c.ofFieldsWithAux fields aux
  | .lifted c => c.ofFields fields

/-- Takes the last elements of a sequence for a value. Returns the value and the elements
before them. -/
def fromFields (t : EntryType Codec) (fields : List Signal) (aux : List Value) :
    Except Error (Value × List Signal) := do
  let count := (← t.type.width ()).fields
  if fields.length < count then
    throw (.elements t.type.typeName count fields.length)
  else
    let rest := fields.length - count
    return (← t.rebuild (fields.drop rest) aux, fields.take rest)

end EntryType

/-- Arguments as one sequence of elements and auxiliary data by argument. -/
structure FlatArguments where
  fields : List Signal
  aux : List (List Value)

namespace FlatArguments

/-- Lays out arguments, first to last. -/
def ofArguments (types : List (EntryType Codec)) (args : List Value) :
    Except Error FlatArguments := do
  if types.length ≠ args.length then
    throw (.arity .arguments types.length args.length)
  else
    let chunks ← (types.zip args).mapM fun (t, v) => t.type.toFields v
    return ⟨chunks.flatten, (types.zip args).map fun (t, v) => t.auxiliary v⟩

/-- Reads arguments back, the given types and auxiliary data being those of the last
arguments first. Puts the arguments before the ones that are done. -/
def readBack (fields : List Signal) (done : List Value) :
    List (EntryType Codec × List Value) → Except Error (List Value × List Signal)
  | [] => .ok (done, fields)
  | (t, aux) :: rest => do
    let (v, fields) ← t.fromFields fields aux
    readBack fields (v :: done) rest

/-- The arguments that were laid out, in order. -/
def toArguments (types : List (EntryType Codec)) (flat : FlatArguments) :
    Except Error (List Value) := do
  if flat.aux.length ≠ types.length then
    throw (.arity .arguments types.length flat.aux.length)
  else
    let (args, rest) ← readBack flat.fields [] (types.zip flat.aux).reverse
    if rest.isEmpty then return args
    else
      let expected := (Width.sum (← types.mapM (·.type.width ()))).fields
      throw (.arity .arguments expected (expected + rest.length))

end FlatArguments

end TypedCircuit
