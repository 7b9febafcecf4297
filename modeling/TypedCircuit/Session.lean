import TypedCircuit.MemoContext
import TypedCircuit.Registry

/-!
# Sessions

A session is everything a construction can see: the open runs and the open memoization
contexts, each with the innermost first, the registered types, a supply of random words,
and whatever the caller keeps for computations of its own.

`Construction` is an operation on a session that may fail. A failure keeps the session as
it was when the failure arose, apart from the scopes it leaves: a run or a context that a
body was executed in is closed on every way out, and the ones around it are as before.

Operations that only wire a circuit are of type `Circuit`. They are lifted, and touch
nothing but the open runs.
-/

namespace TypedCircuit

/-- Everything a construction can see, with data of the caller. -/
structure Session (host : Type) where
  /-- The open runs, the innermost first. -/
  runs : List Run
  /-- The open memoization contexts, the innermost first. -/
  contexts : List MemoContext
  /-- The registered types. -/
  registry : Registry
  /-- Random words that are not drawn yet; after them come zeros. -/
  entropy : List Nat
  /-- What the caller keeps. -/
  host : host

/-- A session in which nothing is open and nothing is registered. -/
def Session.start {host : Type} (entropy : List Nat) (data : host) : Session host :=
  ⟨[], [], .empty, entropy, data⟩

/-- Operations on a session that may fail. -/
abbrev Construction (host : Type) := ExceptT Error (StateM (Session host))

namespace Construction

variable {host α : Type}

/-- An operation on the open runs, in a session. -/
@[inline] def ofCircuit (c : Circuit α) : Construction host α := fun s =>
  let (result, runs) := c s.runs
  (result, { s with runs })

instance : MonadLift Circuit (Construction host) := ⟨ofCircuit⟩

/-- A part of the session. -/
def read (f : Session host → α) : Construction host α := return f (← getThe (Session host))

/-- Executes a body and returns its result, which may be a failure. -/
def attempt (body : Construction host α) : Construction host (Except Error α) := fun s =>
  let (result, s) := body s
  (.ok result, s)

/-! ## Modes -/

/-- The mode of the innermost run. -/
def mode? : Construction host (Option Mode) := read (activeMode? ·.runs)

/-- Whether a run is open. -/
def isChecked : Construction host Bool := read (!·.runs.isEmpty)

/-- Whether a memoization context is open. -/
def isMemoized : Construction host Bool := read (!·.contexts.isEmpty)

/-- Whether variables have values: everywhere but in a compile pass. -/
def hasValues : Construction host Bool := read (haveValues ·.runs)

/-- Executes a body where variables have values and skips it in a compile pass. -/
def whereValued (body : Construction host Unit) : Construction host Unit := do
  if ← hasValues then body

/-! ## Runs -/

/-- Executes a body in a new run and returns the record of the run. -/
def inRun (mode : Mode) (body : Construction host α) : Construction host (α × Run) := fun s =>
  let (result, s) := body { s with runs := .start mode :: s.runs }
  match s.runs with
  | run :: outer => (result.map (·, run), { s with runs := outer })
  | [] => (result.map (·, .start .compile), s)

/-- Executes a body as a compile pass. -/
def compile (body : Construction host α) : Construction host ConstraintSystem := do
  let (_, run) ← inRun .compile body
  return run.constraintSystem

/-- Executes a body as a prove pass and checks every gate it recorded. -/
def prove (body : Construction host α) : Construction host (α × ConstraintSystem) := do
  let (a, run) ← inRun .prove body
  run.verify
  return (a, run.constraintSystem)

/-! ## Memoization contexts -/

/-- Executes a body in a context. Returns its result and the context with all updates. -/
def inContext (ctx : MemoContext) (body : Construction host α) :
    StateM (Session host) (Except Error α × MemoContext) := fun s =>
  let (result, s) := body { s with contexts := ctx :: s.contexts }
  match s.contexts with
  | ctx :: outer => ((result, ctx), { s with contexts := outer })
  | [] => ((result, ctx), s)

/-- Updates the innermost context, if one is open. -/
def updateContext (f : MemoContext → α × MemoContext) :
    Construction host (Option α) :=
  modifyGetThe (Session host) fun s =>
    match s.contexts with
    | [] => (none, s)
    | ctx :: outer =>
      let (a, ctx) := f ctx
      (some a, { s with contexts := ctx :: outer })

/-! ## Types and randomness -/

/-- The codec of a type, by the types registered now. -/
def codecOf (d : Descriptor) : Construction host Codec := read (·.registry.codec d)

/-- Draws a random element. -/
def drawElement : Construction host Element :=
  modifyGetThe (Session host) fun s =>
    let (x, entropy, _) := Element.sample s.entropy
    (x, { s with entropy })

end Construction

end TypedCircuit
