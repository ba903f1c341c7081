import TraceFlow.Kernel.Parser
import TraceFlow.Machine.Effect

set_option autoImplicit false

namespace TraceFlow

structure Program where
  graph : Graph
  effects : List Effect

namespace Machine

-- What an array holds when a run begins.
def initial (g : Graph) (args : Memory) (name : String) (d : Descriptor) : Outcome Tensor :=
  match g.constants.get? name with
  | some value => .ok value
  | none =>
    if d.transient then Tensor.ofDescriptor d
    else match args.get? name with
      | none => halt (.missingArgument g.name name)
      | some value => do
        if value.elem ≠ d.elem ∨ value.shape ≠ d.shape then
          halt (.argumentMismatch name value.typeText (← d.text))
        else return value

def allocate (g : Graph) (args : Memory) : List (String × Descriptor) → Memory → Outcome Memory
  | [], memory => .ok memory
  | (name, d) :: rest, memory => do
    allocate g args rest (memory.insert name (← initial g args name d))

def Guard.holds (guard : Guard) (symbols : Symbols) : Outcome Bool :=
  match guard.lhs with
  | .const value => .ok (value == guard.rhs)
  | .symbol name =>
    match symbols.get? name with
    | some value => .ok (value == guard.rhs)
    | none => halt (.unsetSymbol name)

def bindingValue (memory : Memory) (symbols : Symbols) : Binding → Outcome Int
  | .const value => .ok value
  | .element access => do
    let value ← access.readElement memory symbols.get?
    return value.toInt64.toInt

def assigned (memory : Memory) (symbols : Symbols) :
    List (String × Binding) → Outcome (List (String × Int))
  | [] => .ok []
  | (symbol, binding) :: rest => do
    let value ← bindingValue memory symbols binding
    return (symbol, value) :: (← assigned memory symbols rest)

def assign (symbols : Symbols) (values : List (String × Int)) : Symbols :=
  values.foldl (fun symbols (symbol, value) => symbols.insert symbol value) symbols

def take (memory : Memory) (symbols : Symbols) : List Edge → Outcome (Option (Nat × Symbols))
  | [] => .ok none
  | e :: rest => do
    let open_ ← match e.guard? with
      | none => pure true
      | some guard => Guard.holds guard symbols
    if open_ then
      let values ← assigned memory symbols e.assignments.entries
      return some (e.target, assign symbols values)
    else take memory symbols rest

def effectOf (effects : List Effect) (id : Nat) : Outcome Effect :=
  match effects[id]? with
  | some effect => .ok effect
  | none => .error (.fault .outOfRange)

def transitionLimit (states : Nat) : Nat :=
  max states 1 * 1024

def walk (g : Graph) (effects : List Effect) : Nat → Nat → Effect
  | remaining, id, memory, symbols => do
    let memory ← (← effectOf effects id) memory symbols
    match ← take memory symbols (g.outEdges id) with
    | none => return memory
    | some (target, symbols) =>
      match remaining with
      | 0 => halt (.noTermination g.name (transitionLimit effects.length))
      | remaining + 1 => walk g effects remaining target memory symbols

def results (args memory : Memory) : Memory :=
  ⟨args.entries.map fun (name, value) => (name, (memory.get? name).getD value)⟩

end Machine

namespace Program

open Machine

def run (p : Program) : Effect := fun args symbols => do
  let memory ← allocate p.graph args p.graph.arrays.entries {}
  let limit := transitionLimit p.effects.length
  let memory ← walk p.graph p.effects limit p.graph.start memory symbols
  return results args memory

-- The same run in place: the arguments are written at the end, when nothing can fail any more.
def update (p : Program) (symbols : Symbols) : ExceptT Failure (StateM Memory) Unit := do
  let args ← get
  let memory ← liftM (allocate p.graph args p.graph.arrays.entries {})
  let limit := transitionLimit p.effects.length
  let memory ← liftM (walk p.graph p.effects limit p.graph.start memory symbols)
  set (results args memory)

def call (p : Program) (args : Memory) : Outcome Memory :=
  p.run args {}

def prepare (m : MapNode) : Outcome Effect.MapBody := do
  let assignment ← Kernel.Assignment.parse m.code
  match m.outputs.get? assignment.target with
  | none => halt (.foreignTarget m.label assignment.target)
  | some output =>
    if m.outputs.size ≠ 1 then
      refuse (.unimplemented "tasklet" s!"'{m.label}' has {m.outputs.size} outputs")
    return { node := m, value := assignment.value, output }

mutual

def compile : Graph → Outcome Program
  | ⟨name, arrays, constants, symbols, states, edges, start, args⟩ => do
    let effects ← compileStates states
    return { graph := ⟨name, arrays, constants, symbols, states, edges, start, args⟩, effects }

def compileStates : List State → Outcome (List Effect)
  | [] => .ok []
  | ⟨_, nodes⟩ :: rest => do
    let effect ← compileNodes nodes
    return effect :: (← compileStates rest)

def compileNodes : List Node → Outcome Effect
  | [] => .ok Effect.skip
  | .copy source target :: rest => do
    return (Effect.copy source target).andThen (← compileNodes rest)
  | .map m :: rest => do
    let body ← prepare m
    return (Effect.map body).andThen (← compileNodes rest)
  | .call site callee :: rest => do
    let program ← compile callee
    return (Effect.call site callee.arrays program.run).andThen (← compileNodes rest)

end

end Program

end TraceFlow
