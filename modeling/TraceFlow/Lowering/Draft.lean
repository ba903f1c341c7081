import TraceFlow.Graph.Check
import TraceFlow.Lambda.Params

set_option autoImplicit false

namespace TraceFlow

structure Draft where
  graph : Graph
  inputs? : Option (List String)
  outputs? : Option (List String)
  start : Nat
  terminal : Nat
  names : List (Nat × String)

namespace Draft

def new (name : String) : Draft :=
  let graph := Graph.new name
  { graph, inputs? := none, outputs? := none, start := graph.start, terminal :=
    graph.start, names := [] }

def inputs (d : Draft) : List String :=
  d.inputs?.getD []

def outputs (d : Draft) : List String :=
  d.outputs?.getD []

def nameOf? (d : Draft) (v : Var) : Option String :=
  (d.names.find? fun entry => entry.1 = v.id).map Prod.snd

def broken {α : Type} (d : Draft) (reason : String) : Outcome α :=
  refuse (.invariant s!"translation context of '{d.graph.name}': {reason}")

def stateTag (id : Nat) : String :=
  "StateId(" ++ id.repr ++ ")"

def checkNames (d : Draft) (role : String) (names? : Option (List String)) : Outcome Unit :=
  match (names?.getD []).find? fun name => !d.graph.arrays.contains name with
  | some missing => d.broken s!"{role} '{missing}' is not an array of the graph"
  | none => .ok ()

def check (d : Draft) : Outcome Unit := do
  if d.start ≠ d.graph.start then
    d.broken (s!"expected start state {stateText d.start} but " ++
      s!"the graph starts at {stateText d.graph.start}")
  let sinks := d.graph.sinks
  if sinks ≠ [d.terminal] then
    d.broken (s!"expected {stateText d.terminal} as the only terminal state, " ++
      s!"found {Text.bracketed (sinks.map stateTag)}")
  d.checkNames "input" d.inputs?
  d.checkNames "output" d.outputs?

end Draft

end TraceFlow
