import TraceFlow.Backend
import TraceFlow.Graph.Simplify
import TraceFlow.Routine

set_option autoImplicit false

namespace TraceFlow

structure Executable where
  program : Program
  graph : Graph
  inputs : List String
  outputs : List String

namespace Executable

-- Compiles a routine.
def ofRoutine (r : Routine) (backend : Backend) : Outcome Executable := do
  if r.inputs.isEmpty && r.outputs.isEmpty then
    refuse (.argument s!"{r.graph.place} has neither inputs nor outputs")
  match r.graph.arrays.keys.find? fun name => "__return".isPrefixOf name with
  | some name => refuse (.unsupported s!"{r.graph.place} uses the return array '{name}'")
  | none => pure ()
  let free := r.graph.freeSymbols
  if !free.isEmpty then
    refuse (.unsupported s!"{r.graph.place} has free symbols {Text.quotedSet free}")
  let program ← backend.compile r.graph
  return { program, graph := r.graph, inputs := r.inputs, outputs := r.outputs }

def descriptor (x : Executable) (name : String) : Outcome Descriptor :=
  match x.graph.array? name with
  | some d => .ok d
  | none => refuse (.invariant s!"argument '{name}' has no array")

def asTensor (name : String) : Argument → Outcome Tensor
  | .tensor t => if t.shape.isEmpty then t.reshape [1] else .ok t
  | .scalar s => Tensor.ofScalar s
  | .tuple _ => refuse (.argument s!"argument '{name}' is a tuple")

def checkArgument (name : String) (t : Tensor) (d : Descriptor) : Outcome Unit := do
  let fits ← if t.elem = d.elem then do pure ((← t.count) == (← d.count)) else pure false
  if !fits then
    let expected ← d.text
    refuse (.argument s!"argument '{name}' is {t.typeText}, expected {expected}")
  let laidOut ← if t.shape = d.shape then do pure ((← t.count) ≤ 1 || t.strides = d.strides)
    else pure false
  if !laidOut then
    refuse (.argument (s!"argument '{name}' has shape {Text.naturals t.shape} and " ++
      s!"strides {Text.naturals t.strides}, lowered for {Text.naturals d.shape} and " ++
      s!"{Text.naturals d.strides}"))
  if d.storage ≠ .anywhere ∧ t.storage ≠ d.storage then
    refuse (.argument s!"argument '{name}' lives in {t.storage.tag}, lowered for {d.storage.tag}")

def bindInputs (x : Executable) : Memory → List (String × Argument) → Outcome Memory
  | memory, [] => .ok memory
  | memory, (name, argument) :: rest => do
    let d ← x.descriptor name
    let t ← asTensor name argument
    checkArgument name t d
    x.bindInputs (memory.insert name t) rest

def allocateOutputs (x : Executable) : Memory → List String → Outcome Memory
  | memory, [] => .ok memory
  | memory, name :: rest =>
    if memory.contains name then x.allocateOutputs memory rest
    else do
      let t ← Tensor.ofDescriptor (← x.descriptor name)
      x.allocateOutputs (memory.insert name t) rest

def readOutput (memory : Memory) (name : String) : Outcome Tensor :=
  match memory.get? name with
  | some t => .ok t
  | none => refuse (.invariant s!"program dropped output '{name}'")

def call (x : Executable) (args : List Argument) : Outcome (List Tensor) := do
  if args.length ≠ x.inputs.length then
    refuse (.argument s!"'{x.graph.name}' takes {x.inputs.length} arguments, got {args.length}")
  let memory ← x.bindInputs {} (x.inputs.zip args)
  let memory ← x.allocateOutputs memory x.outputs
  if memory.size ≠ x.graph.args.length then
    refuse (.invariant (s!"built {memory.size} call arguments for '{x.graph.name}', " ++
      s!"expected {Text.quotedList x.graph.args}"))
  let memory ← x.program.call memory
  x.outputs.mapM (readOutput memory)

def text (x : Executable) : String :=
  "CompiledJaxprSdfg \x7b sdfg: " ++ Text.quoted x.graph.name ++ ", inp_names: " ++
    Text.quotedList x.inputs ++ ", out_names: " ++ Text.quotedList x.outputs ++ " \x7d"

end Executable

-- Simplifies if the options say so, lets the backend optimize, and checks what came out.
def Routine.optimized (r : Routine) (backend : Backend) (options : Options) : Outcome Routine := do
  let graph ← if options.simplifies then r.graph.simplify else pure r.graph
  let graph ← backend.optimize options graph
  let r := { r with graph }
  r.check
  return r

end TraceFlow
