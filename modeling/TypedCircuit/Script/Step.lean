import TypedCircuit.Script.Evaluation

/-!
# Scripts

A script is a construction written down as data. Its steps perform operations, open
scopes around further steps, or bring values into the circuit that further steps compute.
Because a script is data, whatever holds of a construction can be said of all of them at
once, and be proved by induction on the script.

## Running

A step is performed, its report or its error is logged under the path of the step, and
what it offers is saved if the step asks for it. Steps inside a scope or a computation
are logged before the step around them. A failing step fails the steps around it, up to
one that is told to go on; at the outermost level every script goes on. The path of a
step is its position in each of the enclosing bodies; positions in a computation are
marked by a `c`.
-/

namespace TypedCircuit.Script

/-- What a step does with its outcome. -/
structure Handling where
  /-- The name under which the outcome is saved. -/
  saveAs? : Option String
  /-- Whether the steps after a failure are still performed. -/
  goesOn : Bool
deriving Inhabited

/-- How a computation ends. -/
inductive Ending where
  /-- It yields a value. -/
  | returns (v : ValueExpr)
  /-- It fails with a message. -/
  | fails (message : String)
deriving Inhabited

/-- A step of a script. -/
inductive Step where
  | operation (op : Operation) (handling : Handling)
  /-- A compile pass over a body. -/
  | compile (body : List Step) (brief : Bool) (handling : Handling)
  /-- A prove pass over a body. -/
  | prove (body : List Step) (brief : Bool) (handling : Handling)
  /-- A body that is performed where variables have values. -/
  | whereValued (body : List Step) (handling : Handling)
  /-- A witness, or a memoized one, whose computation performs steps. -/
  | witness (memoized : Bool) (type : TypeExpr) (compute : List Step) (ending : Ending)
      (handling : Handling)
  /-- A body in a kept memoization context. -/
  | memo (context : String) (body : List Step) (handling : Handling)
deriving Inhabited

/-- What a step does with its outcome. -/
def Step.handling : Step → Handling
  | .operation _ h | .compile _ _ h | .prove _ _ h | .whereValued _ h | .witness _ _ _ _ h
  | .memo _ _ h => h

open Construction

/-- Logs the report or the error of a step. -/
def log (path : String) (result : Except Error Report) : Action Unit :=
  modifyThe (Session Workspace) fun s =>
    { s with host := { s.host with log := (path, result) :: s.host.log } }

/-- Saves what an outcome offers, if a name is given. -/
def save (name? : Option String) (saved? : Option Saved) : Action Unit :=
  match name?, saved? with
  | some name, some saved =>
    modifyThe (Session Workspace) fun s => { s with host := s.host.save name saved }
  | _, _ => pure ()

/-- Performs a step: its outcome is logged and saved, its failure is logged and passed on
unless the script is told to go on. -/
def handle (path : String) (handling : Handling) (action : Action Outcome) : Action Unit := do
  match ← attempt action with
  | .ok outcome =>
    log path (.ok outcome.report)
    save handling.saveAs? outcome.saved?
  | .error e =>
    log path (.error e)
    if !handling.goesOn then throw e

/-- The value that ends a computation. -/
def Ending.run : Ending → Action Value
  | .returns v => evalValue v
  | .fails message => throw (.computationFailed message)

/-- Performs a body in a kept memoization context, which is kept again whatever happens.
While it is open the context is not among the kept ones. -/
def inKeptContext (name : String) (body : Action Unit) : Action Outcome := do
  let ctx ← keptContext name
  modifyThe (Session Workspace) fun s => { s with host := s.host.dropContext name }
  let (result, ctx) ← (inContext ctx body : StateM (Session Workspace) _)
  modifyThe (Session Workspace) fun s => { s with host := s.host.keepContext name ctx }
  result
  return .ofReport (.context ctx)

mutual

/-- What a step does, with the paths of the steps in it starting as given. -/
def Step.action (path : String) : Step → Action Outcome
  | .operation op _ => op.run
  | .compile body brief _ => do
    let cs ← Construction.compile (Step.runAll (path ++ ".") 0 body)
    return .ofReport (.system cs brief)
  | .prove body brief _ => do
    let (_, cs) ← Construction.prove (Step.runAll (path ++ ".") 0 body)
    return .ofReport (.system cs brief)
  | .whereValued body _ => do
    Construction.whereValued (Step.runAll (path ++ ".") 0 body)
    return .done
  | .witness memoized type compute ending _ => do
    let d ← buildType type
    let computation : Action Value := do
      Step.runAll (path ++ ".c") 0 compute
      ending.run
    let v ← if memoized then memoizedWitness d computation else Construction.witness d computation
    return .value v
  | .memo context body _ => inKeptContext context (Step.runAll (path ++ ".") 0 body)

/-- Performs steps one after another, up to a failure that is passed on. -/
def Step.runAll (start : String) (position : Nat) : List Step → Action Unit
  | [] => pure ()
  | step :: rest => do
    let path := start ++ toString position
    handle path step.handling (step.action path)
    Step.runAll start (position + 1) rest

end

/-- Performs the steps of a script, going on after every failure. -/
def runScript (position : Nat) : List Step → StateM (Session Workspace) Unit
  | [] => pure ()
  | step :: rest => do
    let path := toString position
    let _ ← ExceptT.run (handle path step.handling (step.action path))
    runScript (position + 1) rest

/-- The log of a script that starts from nothing but a supply of random words. -/
def logOf (entropy : List Nat) (steps : List Step) : List (String × Except Error Report) :=
  let (_, session) := runScript 0 steps (Session.start entropy Workspace.empty)
  session.host.log.reverse

end TypedCircuit.Script
