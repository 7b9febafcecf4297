import TypedCircuit.Equality
import TypedCircuit.Script.Operation
import TypedCircuit.Script.Report
import TypedCircuit.Selection
import TypedCircuit.Witness

/-!
# What operations of scripts do

`Operation.run` evaluates the operands of an operation in the order in which they are
written, performs it in the session, and returns its report together with what may be
saved. It neither saves nor logs anything; that is the business of the step.
-/

namespace TypedCircuit.Script

/-- An operation on a session that keeps a workspace. -/
abbrev Action := Construction Workspace

open Construction

/-! ## Operands -/

/-- The value of an expression. -/
def evalValue (e : ValueExpr) : Action Value := do
  e.eval (← read (·.host.values))

/-- The field element of an expression. -/
def evalSignal (e : ValueExpr) : Action Signal := do
  found "a field element" (← evalValue e).signal?

/-- The boolean of an expression. -/
def evalBit (e : ValueExpr) : Action Bit := do
  found "a boolean" (← evalValue e).bit?

/-- The items of an array of an expression. -/
def evalItems (e : ValueExpr) : Action (List Value) := do
  found "an array" (← evalValue e).items?

/-- The field elements of an array of an expression. -/
def evalSignals (e : ValueExpr) : Action (List Signal) := do
  (← evalItems e).mapM fun v => found "a field element" v.signal?

/-- The type of an expression. -/
def buildType (t : TypeExpr) : Action Descriptor := do
  t.build (← read Session.registry) (← read (·.host.types))

/-- The codec of the type of an expression. -/
def typeCodec (t : TypeExpr) : Action Codec := do codecOf (← buildType t)

/-- The codec of the type of an argument. -/
def entryCodec : EntryType TypeExpr → Action (EntryType Codec)
  | .direct t => return .direct (← typeCodec t)
  | .lifted t => return .lifted (← typeCodec t)

/-- The hash input of an expression. -/
def evalInput : InputExpr → Action HashInput
  | .saved name => do found "a saved hash input" ((← read (·.host.inputs)).find? name)
  | .parts fields packed => do
    let fields ← evalSignals fields
    let packed ← packed.mapM fun (e, bits) => return (← evalSignal e, bits)
    return ⟨fields, packed⟩

/-- The arguments of an expression. -/
def evalArguments : ArgumentsExpr → Action FlatArguments
  | .saved name => do found "saved arguments" ((← read (·.host.arguments)).find? name)
  | .parts fields aux => return ⟨← evalSignals fields, ← aux.mapM evalItems⟩

/-- An operation on signals, in a session. -/
def wire {α : Type} (w : Wiring α) : Action α := (w : Circuit α)

/-! ## Values -/

/-- Performs an operation on values. -/
def ValueOperation.run : ValueOperation → Action Outcome
  | .evaluate v => return .value (← evalValue v)
  | .sameValue a b => do
    let x ← evalValue a
    let y ← evalValue b
    return .bool (← x.sameValue y)
  | .sameWiring a b => do
    let x ← evalValue a
    let y ← evalValue b
    return .bool (x == y)
  | .kind v => do
    let v ← evalValue v
    return .ofReport (.kind v.kind v.form)
  | .signalValue a => do
    let x ← (← evalSignal a).value
    return .text x.text
  | .signalIsConstant a => return .bool (← evalSignal a).isConstant
  | .signalToConstant a => do return .signal (← (← evalSignal a).toConstant)
  | .signalText a => return .text (← evalSignal a).text
  | .bitValue a => do return .bool (← (← evalBit a).value)
  | .bitIsConstant a => return .bool (← evalBit a).isConstant
  | .bitToConstant a => do return .bit (← (← evalBit a).toConstant)
  | .opaqueText => return .text "Opaque(..)"

/-! ## Circuits -/

/-- Performs an operation on two field elements. -/
def onSignals (f : Signal → Signal → Wiring Signal) (a b : ValueExpr) : Action Outcome := do
  let x ← evalSignal a
  let y ← evalSignal b
  return .signal (← wire (f x y))

/-- Performs an operation on two booleans. -/
def onBits (f : Bit → Bit → Wiring Bit) (a b : ValueExpr) : Action Outcome := do
  let x ← evalBit a
  let y ← evalBit b
  return .bit (← wire (f x y))

/-- Performs an operation on signals and bits. -/
def CircuitOperation.run : CircuitOperation → Action Outcome
  | .add a b => onSignals Signal.add a b
  | .sub a b => onSignals Signal.sub a b
  | .mul a b => onSignals Signal.mul a b
  | .neg a => do return .signal (← wire (← evalSignal a).neg)
  | .square a => do return .signal (← wire (← evalSignal a).square)
  | .equals a b => do
    let x ← evalSignal a
    let y ← evalSignal b
    return .bit (← wire (x.equals y))
  | .assertEqual a b => do
    let x ← evalSignal a
    let y ← evalSignal b
    x.assertEqual y
    return .done
  | .assertBoolean a => do
    (← evalSignal a).assertBoolean
    return .done
  | .assertRange a bits => do
    (← evalSignal a).assertRange bits
    return .done
  | .and a b => onBits Bit.and a b
  | .or a b => onBits Bit.or a b
  | .not a => do return .bit (← wire (← evalBit a).not)
  | .bitEquals a b => onBits Bit.equals a b
  | .bitAssertEqual a b => do
    let x ← evalBit a
    let y ← evalBit b
    x.assertEqual y
    return .done
  | .assertTrue a => do
    (← evalBit a).assertTrue
    return .done

/-! ## Types -/

/-- The text of a type in messages. -/
def typeText (d : Descriptor) (width : Width) : String :=
  "Descriptor \x7b type_name: " ++ Text.quoted d.typeName ++ ", size_in_fields: " ++
    toString width.fields ++ ", kind: " ++ d.kindName ++ " \x7d"

/-- Performs an operation with a type. -/
def TypeOperation.run (d : Descriptor) (op : TypeOperation) : Action Outcome := do
  let c ← codecOf d
  match op with
  | .describe =>
    let description : Description :=
      { typeName := d.typeName, width := ← c.width (), kindName := d.kindName
        hashInput := d.supportsHashInput, json := d.supportsJson }
    return ⟨.description description, some (.type d)⟩
  | .text => return .text (typeText d (← c.width ()))
  | .toFields v => return .signals (← c.toFields (← evalValue v))
  | .ofFields fields => return .value (← c.ofFields (← evalSignals fields))
  | .ofFieldsWithAux fields aux => do
    let fields ← evalSignals fields
    let aux ← evalItems aux
    return .value (← c.ofFieldsWithAux fields aux)
  | .check v => do
    c.check (← evalValue v)
    return .done
  | .auxiliary v => return .values (c.auxiliary (← evalValue v))
  | .toInput v => return .input (← c.toInput (← evalValue v))
  | .toInputOrFields v => return .input (← c.toInputOrFields (← evalValue v))
  | .toJson v => return .ofReport (.json (← c.toJson (← evalValue v)))
  | .fromJson json =>
    match ← c.fromJson json with
    | some v => return .value v
    | none => return .ofReport .nothing
  | .toConstant v => return .value (← c.toConstant (← evalValue v))
  | .isConstant v => return .bool (← c.isConstant (← evalValue v))
  | .equal a b => do
    let x ← evalValue a
    let y ← evalValue b
    return .bit (← c.equal x y)
  | .assertEqual a b => do
    let x ← evalValue a
    let y ← evalValue b
    c.assertEqual x y
    return .done
  | .select condition yes no => do
    let condition ← evalBit condition
    let yes ← evalValue yes
    let no ← evalValue no
    return .value (← c.select condition yes no)
  | .switch mask candidates => do
    let mask ← mask.mapM evalBit
    let candidates ← candidates.mapM evalValue
    return .value (← c.switch mask candidates)

/-! ## Registered types -/

/-- A description of the members of a composite type, by what is registered now. -/
def describeSchema (schema : Schema) : Action SchemaReport := do
  let members ← schema.mapM fun (name, d) => do
    return (name, d.typeName, ← (← codecOf d).width ())
  return ⟨members, Width.sum (members.map (·.2.2))⟩

/-- Performs an operation on registered types. -/
def RegistryOperation.run : RegistryOperation → Action Outcome
  | .register type field member? => do
    let member? ← member?.mapM buildType
    let (registry, result) := (← read Session.registry).register type field member?
    modifyThe (Session Workspace) fun s => { s with registry }
    result
    return .ofReport (.schema (← describeSchema (registry.schema type)))
  | .declare type members => do
    let members ← members.mapM fun (field, member?) => return (field, ← member?.mapM buildType)
    let (registry, result) := (← read Session.registry).registerAll type members
    modifyThe (Session Workspace) fun s => { s with registry }
    result
    let report ← describeSchema (registry.schema type)
    return .ofReport (.declared type report.width.fields report)
  | .lookUp type field? => do
    let registry ← read Session.registry
    let schema := registry.schema type
    let report ← describeSchema schema
    let member? := field?.map fun field => (schema.member? field).map Descriptor.typeName
    return ⟨.lookedUp report (registry.contains type) member?, some (.schema schema)⟩
  | .held name => do
    let schema ← found "a saved schema" ((← read (·.host.schemas)).find? name)
    return .ofReport (.schema (← describeSchema schema))
  | .compositeText name =>
    return .text ("CompositeType \x7b name: " ++ Text.quoted name ++ ", .. \x7d")

/-! ## Arguments -/

/-- Performs an operation on arguments. -/
def ArgumentOperation.run : ArgumentOperation → Action Outcome
  | .entry type v => do
    let type ← entryCodec type
    let v ← evalValue v
    let width ← type.type.width ()
    return .ofReport (.entry type.type.typeName width.fields (type.type.toFields v)
      (type.auxiliary v))
  | .take type fields aux => do
    let type ← entryCodec type
    let fields ← evalSignals fields
    let aux ← evalItems aux
    let (v, rest) ← type.fromFields fields aux
    return ⟨.taken v rest, some (.value v)⟩
  | .layOut types args => do
    let types ← types.mapM entryCodec
    let args ← args.mapM evalValue
    let flat ← FlatArguments.ofArguments types args
    return ⟨.arguments flat, some (.arguments flat)⟩
  | .readBack types flat => do
    let types ← types.mapM entryCodec
    let flat ← evalArguments flat
    return .values (← flat.toArguments types)

/-! ## Scopes -/

/-- The computation of private inputs: values of field elements, or a failure. -/
def inputValues (signals : List Signal) (failure? : Option String) :
    Action (List Element × Unit) :=
  match failure? with
  | some message => throw (.computationFailed message)
  | none => do
    let values ← signals.mapM fun s => s.value
    return (values, ())

/-- A kept memoization context. -/
def keptContext (name : String) : Action MemoContext := read (·.host.context name)

/-- Performs an operation on scopes. -/
def ScopeOperation.run : ScopeOperation → Action Outcome
  | .status =>
    return .ofReport (.status (← isChecked) (← mode?) (← hasValues) (← isMemoized))
  | .introduce size values failure? => do
    let signals ← evalSignals values
    let (fields, called?) ← Construction.introduce size (inputValues signals failure?)
    return ⟨.introduced called?.isSome fields, some (.value (.array (fields.map .signal)))⟩
  | .blinding => do
    let s ← blindingValue
    return ⟨.blinding s, some (.value (.signal s))⟩
  | .context name => return .ofReport (.context (← keptContext name))
  | .rewind name => do
    let ctx := (← keptContext name).rewind
    modifyThe (Session Workspace) fun s => { s with host := s.host.keepContext name ctx }
    return .ofReport (.context ctx)
  | .cloneContext name target => do
    let ctx ← keptContext name
    modifyThe (Session Workspace) fun s => { s with host := s.host.keepContext target ctx }
    return .done
  | .sameContext a b => return .bool ((← keptContext a) == (← keptContext b))
  | .blindingIs name a => do
    let x ← (← evalSignal a).value
    return .bool ((← keptContext name).blinding? == some x)

/-! ## All operations -/

/-- Performs an operation. -/
def Operation.run : Operation → Action Outcome
  | .value op => op.run
  | .circuit op => op.run
  | .typed type op => do op.run (← buildType type)
  | .append a b => do
    let a ← evalInput a
    let b ← evalInput b
    return .input (a.append b)
  | .pack h => do return .signals (← wire (← evalInput h).pack)
  | .registry op => op.run
  | .arguments op => op.run
  | .scope op => op.run

end TypedCircuit.Script
