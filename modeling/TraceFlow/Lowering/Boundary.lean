import TraceFlow.ArgSpec
import TraceFlow.Routine

set_option autoImplicit false

namespace TraceFlow

namespace Boundary

def inputName (i : Nat) : String :=
  "__jace_input_" ++ i.repr

def outputName (i : Nat) : String :=
  "__jace_output_" ++ i.repr

abbrev DraftM := ExceptT Failure (StateM Draft)

def lift {α : Type} (o : Outcome α) : DraftM α :=
  fun d => (o, d)

def changeGraph (change : Graph → Outcome Graph) : DraftM Unit := do
  let d ← get
  let graph ← lift (change d.graph)
  set { d with graph }

def addState (label : String) : DraftM Nat := do
  let id := (← get).graph.nextState
  changeGraph fun g => .ok (g.addState label)
  return id

def addEdge (source target : Nat) : DraftM Unit :=
  changeGraph fun g => .ok (g.addEdge { source, target })

def inner (role name : String) : DraftM Descriptor := do
  match (← get).graph.array? name with
  | some d => return d
  | none => refuse (.invariant s!"{role} '{name}' has no array")

def addCopy (state : Nat) (source target : Access) : DraftM Unit :=
  changeGraph fun g => g.addNode state (.copy source target)

def inputArray (i : Nat) (d : Descriptor) (arg : ArgSpec) : Outcome Descriptor := do
  let given ← sizeProduct arg.shape
  let fits ← if arg.elem = d.elem then do pure (given == (← d.count)) else pure false
  if !fits then
    let traced ← d.text
    refuse (.argument (s!"argument {i} is {arg.elem.name}{Text.naturals arg.shape} but " ++
      s!"the traced input is {traced}"))
  let outer ← Descriptor.dense d.shape d.elem
  let strides := match arg.strides? with
    | some strides => if strides.length = d.rank then strides else outer.strides
    | none => outer.strides
  return { outer with strides, storage := arg.storage }

def addInputs (state : Nat) : Nat → List (String × ArgSpec) → DraftM (List String)
  | _, [] => return []
  | i, (name, arg) :: rest => do
    let d ← inner "input" name
    let outer ← lift (inputArray i d arg)
    changeGraph fun g => g.addArray (inputName i) outer
    addCopy state (.full (inputName i) outer) (.full name d)
    return inputName i :: (← addInputs state (i + 1) rest)

def addOutputs (state : Nat) : Nat → List String → DraftM (List String)
  | _, [] => return []
  | i, name :: rest => do
    let d ← inner "output" name
    let outer ← lift (Descriptor.dense d.shape d.elem)
    changeGraph fun g => g.addArray (outputName i) outer
    addCopy state (.full name d) (.full (outputName i) outer)
    return outputName i :: (← addOutputs state (i + 1) rest)

def addInputStage (args : List ArgSpec) : DraftM Unit := do
  let d ← get
  let state ← addState (d.graph.name ++ "__start_state")
  let names ← addInputs state 0 (d.inputs.zip args)
  addEdge state d.start
  modify fun d =>
    { d with graph := { d.graph with start := state }, start := state, inputs? := some names }

def addOutputStage : DraftM Unit := do
  let d ← get
  let state ← addState "output_processing_stage"
  let names ← addOutputs state 0 d.outputs
  addEdge d.terminal state
  modify fun d => { d with terminal := state, outputs? := some names }

def addStages (args : List ArgSpec) : DraftM Unit := do
  let (inputs, outputs) ← lift (← get).signature
  match outputs.find? fun name => name ∈ inputs with
  | some name => refuse (.unsupported s!"'{name}' is both an input and an output")
  | none => pure ()
  if args.length ≠ inputs.length then
    refuse (.argument s!"expected {inputs.length} arguments, got {args.length}")
  addInputStage args
  addOutputStage

end Boundary

def Draft.toRoutine (d : Draft) (args : List ArgSpec) (validate : Bool) : Outcome Routine := do
  d.check
  let (outcome, d) := Boundary.addStages args d
  outcome
  d.finish validate

end TraceFlow
