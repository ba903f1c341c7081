import TraceFlow.Lowering.Draft

set_option autoImplicit false

namespace TraceFlow

structure Routine where
  graph : Graph
  inputs : List String
  outputs : List String

def distinct : List String → List String
  | [] => []
  | name :: rest => name :: (distinct rest).filter fun other => other ≠ name

theorem mem_distinct {name : String} (names : List String) : name ∈ distinct names ↔
    name ∈ names := by
  induction names with
  | nil => simp [distinct]
  | cons first rest ih => by_cases same : name = first <;> simp [distinct, ih, same]

namespace Routine

def isTransient (r : Routine) (name : String) : Bool :=
  match r.graph.array? name with
  | some d => d.transient
  | none => true

def checkRole (r : Routine) (role : String) (names : List String) : Outcome Unit :=
  let transient := names.filter r.isTransient
  if transient.isEmpty then .ok ()
  else Graph.invalid r.graph.place s!"found transient {role} {Text.quotedList transient}"

def check (r : Routine) : Outcome Unit := do
  r.checkRole "inputs" r.inputs
  r.checkRole "outputs" r.outputs
  let free := r.graph.freeSymbols
  if !free.isEmpty then
    Graph.invalid r.graph.place s!"found free symbols {Text.quotedSet free}"
  r.graph.check

end Routine

namespace Graph

def expose (g : Graph) : List String → Outcome Graph
  | [] => .ok g
  | name :: rest =>
    if g.arrays.contains name then
      expose { g with arrays := g.arrays.adjust name fun d => { d with transient := false } } rest
    else refuse (.invariant s!"argument '{name}' has no array")

end Graph

namespace Draft

def signature (d : Draft) : Outcome (List String × List String) :=
  match d.inputs?, d.outputs? with
  | some inputs, some outputs => .ok (inputs, outputs)
  | _, _ => refuse (.invariant "the context has no input or output names yet")

-- Makes a routine of a draft.
def finish (d : Draft) (validate : Bool) : Outcome Routine := do
  d.check
  let (inputs, outputs) ← d.signature
  if inputs.isEmpty && outputs.isEmpty then
    refuse (.invariant s!"SDFG '{d.graph.name}' has neither inputs nor outputs")
  let args := distinct (inputs ++ outputs)
  let graph ← d.graph.expose args
  let routine : Routine := { graph := { graph with args }, inputs, outputs }
  if validate then routine.check
  return routine

end Draft

end TraceFlow
