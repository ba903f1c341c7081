import TraceFlow.Access
import TraceFlow.Tensor

set_option autoImplicit false

namespace TraceFlow

structure MapNode where
  label : String
  axes : List Axis
  inputs : Dict Access
  -- Symbols whose value is read before the map runs.
  dynamic : Dict Access
  code : String
  outputs : Dict Access

structure CallSite where
  label : String
  inputs : Dict String
  outputs : Dict String
  symbols : Dict String

inductive Operand where
  | symbol (name : String)
  | const (value : Int)
  deriving DecidableEq, Repr

namespace Operand

def text : Operand → String
  | .symbol name => name
  | .const value => Text.integer value

end Operand

structure Guard where
  lhs : Operand
  rhs : Int
  deriving DecidableEq, Repr

def Guard.text (g : Guard) : String :=
  g.lhs.text ++ " == " ++ Text.integer g.rhs

inductive Binding where
  | const (value : Int)
  | element (access : Access)
  deriving DecidableEq, Repr

def Binding.text : Binding → Outcome String
  | .const value => .ok (Text.integer value)
  | .element access => access.text

structure Edge where
  source : Nat
  target : Nat
  guard? : Option Guard := none
  assignments : Dict Binding := {}

namespace Edge

def isPlain (e : Edge) : Bool :=
  e.guard?.isNone && e.assignments.isEmpty

def guardSymbols (e : Edge) : List String :=
  match e.guard? with
  | some ⟨.symbol name, _⟩ => [name]
  | _ => []

end Edge

mutual

inductive Node where
  | copy (source target : Access)
  | map (node : MapNode)
  | call (site : CallSite) (callee : Graph)

structure State where
  label : String
  nodes : List Node

structure Graph where
  name : String
  arrays : Dict Descriptor
  constants : Dict Tensor
  symbols : Dict ElemType
  states : List State
  edges : List Edge
  start : Nat
  args : List String

end

def stateText (id : Nat) : String :=
  "s" ++ id.repr

namespace MapNode

def accesses (m : MapNode) : List Access :=
  (m.inputs.entries ++ m.outputs.entries).map Prod.snd

def locals (m : MapNode) : List String :=
  m.axes.map Axis.param ++ m.dynamic.keys

def outerSymbols (m : MapNode) : List String :=
  (m.accesses.flatMap Access.symbols).filter fun symbol => symbol ∉ m.locals

end MapNode

namespace Node

def kind : Node → String
  | .copy _ _ => "copy"
  | .map _ => "map"
  | .call _ _ => "nested"

def reads : Node → List String
  | .copy source _ => [source.array]
  | .map m => (m.inputs.entries ++ m.dynamic.entries).map fun entry => entry.2.array
  | .call site _ => site.inputs.entries.map Prod.snd

def writes : Node → List String
  | .copy _ target => [target.array]
  | .map m => m.outputs.entries.map fun entry => entry.2.array
  | .call site _ => site.outputs.entries.map Prod.snd

def symbols : Node → List String
  | .copy source target => source.symbols ++ target.symbols
  | .map m => m.outerSymbols
  | .call site _ => site.symbols.entries.map Prod.snd

end Node

namespace State

def isEmpty (s : State) : Bool :=
  s.nodes.isEmpty

def add (s : State) (node : Node) : State :=
  { s with nodes := s.nodes ++ [node] }

end State

namespace Graph

def new (name : String) : Graph :=
  { name, arrays := {}, constants := {}, symbols := {}, states := [⟨"initial_state", []⟩], edges :=
    [],
    start := 0, args := [] }

instance : Inhabited Graph := ⟨new ""⟩

def array? (g : Graph) (name : String) : Option Descriptor :=
  g.arrays.get? name

def addArray (g : Graph) (name : String) (d : Descriptor) : Outcome Graph :=
  if g.arrays.contains name then
    refuse (.naming s!"array '{name}' already exists in SDFG '{g.name}'")
  else .ok { g with arrays := g.arrays.insert name d }

def removeArray (g : Graph) (name : String) : Graph :=
  { g with arrays := g.arrays.erase name, constants := g.constants.erase name }

def addConstant (g : Graph) (name : String) (value : Tensor) : Outcome Graph := do
  let g ← g.addArray name (← Descriptor.dense value.shape value.elem)
  return { g with constants := g.constants.insert name value }

def fits (d : Descriptor) (value : Tensor) : Outcome Bool :=
  if d.elem = value.elem then do return (← d.count) == (← value.count) else .ok false

def bindConstant (g : Graph) (name : String) (value : Tensor) : Outcome Graph := do
  match g.arrays.get? name with
  | none => refuse (.invariant s!"can not bind a constant to unknown array '{name}'")
  | some d =>
    if !(← fits d value) then
      let expected ← d.text
      refuse
        (.invariant s!"constant of type {value.typeText} does not fit array '{name}' ({expected})")
    return { g with constants := g.constants.insert name (← value.reshape d.shape) }

def addSymbol (g : Graph) (name : String) (elem : ElemType) : Graph :=
  { g with symbols := g.symbols.insert name elem }

def addState (g : Graph) (label : String) : Graph :=
  { g with states := g.states ++ [⟨label, []⟩] }

def nextState (g : Graph) : Nat :=
  g.states.length

def hasState (g : Graph) (id : Nat) : Bool :=
  id < g.states.length

def state (g : Graph) (id : Nat) : Outcome State :=
  match g.states[id]? with
  | some s => .ok s
  | none => .error (.fault .outOfRange)

def addEdge (g : Graph) (e : Edge) : Graph :=
  { g with edges := g.edges ++ [e] }

def addNode (g : Graph) (id : Nat) (node : Node) : Outcome Graph :=
  if g.hasState id then .ok { g with states := g.states.modify id (·.add node) }
  else .error (.fault .outOfRange)

def outEdges (g : Graph) (id : Nat) : List Edge :=
  g.edges.filter fun e => e.source = id

def inEdges (g : Graph) (id : Nat) : List Edge :=
  g.edges.filter fun e => e.target = id

def outDegree (g : Graph) (id : Nat) : Nat :=
  (g.outEdges id).length

def inDegree (g : Graph) (id : Nat) : Nat :=
  (g.inEdges id).length

def nodeCount (g : Graph) : Nat :=
  g.states.foldl (fun total s => total + s.nodes.length) 0

def sinks (g : Graph) : List Nat :=
  (List.range g.states.length).filter fun id => g.outDegree id = 0

def successors (g : Graph) (id : Nat) : List Nat :=
  (g.outEdges id).map Edge.target

-- Visits the queue breadth first; `seen` lists the visited states in order.
def visit (g : Graph) : Nat → List Nat → List Nat → List Nat
  | 0, _, seen => seen
  | _ + 1, [], seen => seen
  | fuel + 1, id :: queue, seen =>
    if id ∈ seen then visit g fuel queue seen
    else visit g fuel (queue ++ g.successors id) (seen ++ [id])

-- The states reachable from the start, breadth first. Each edge is queued at most once.
def reachable (g : Graph) : List Nat :=
  g.visit (g.edges.length + 1) [g.start] []

def shifted (id other : Nat) : Nat :=
  if id < other then other - 1 else other

-- Drops a state with its edges; later states move down by one.
def dropState (g : Graph) (id : Nat) : Graph :=
  let kept := g.edges.filter fun e => e.source ≠ id ∧ e.target ≠ id
  { g with
    states := g.states.eraseIdx id
    edges := kept.map fun e => { e with source := shifted id e.source, target := shifted id e.target
      }
    start := shifted id g.start }

def removeState (g : Graph) (id : Nat) : Outcome Graph :=
  if !g.hasState id then
    refuse (.invariant s!"state {stateText id} does not exist in SDFG '{g.name}'")
  else if id = g.start then
    refuse (.invariant s!"can not remove start state {stateText id} of SDFG '{g.name}'")
  else .ok (g.dropState id)

end Graph

end TraceFlow
