import TraceFlow.Graph.Basic

set_option autoImplicit false

namespace TraceFlow.Graph

def dropEmptyStart? (g : Graph) : Outcome (Option Graph) := do
  let s ← g.state g.start
  if !s.isEmpty || g.inDegree g.start ≠ 0 then return none
  match g.outEdges g.start with
  | [e] =>
    if e.isPlain && g.inDegree e.target = 1 then
      return some ({ g with start := e.target }.dropState g.start)
    else return none
  | _ => return none

def hasEdge (g : Graph) (source target : Nat) : Bool :=
  g.edges.any fun e => e.source = source && e.target = target

def bypass? (g : Graph) (id : Nat) (s : State) : Option Edge :=
  if id = g.start || !s.isEmpty then none
  else match g.inEdges id, g.outEdges id with
    | [before], [after] =>
      if (before.isPlain || after.isPlain) && before.source ≠ id && after.target ≠ id &&
          !g.hasEdge before.source after.target then
        let payload := if before.isPlain then after else before
        some { payload with source := before.source, target := after.target }
      else none
    | _, _ => none

def bypassFrom? (g : Graph) : Nat → List State → Option Graph
  | _, [] => none
  | id, s :: rest =>
    match g.bypass? id s with
    | some e => some ((g.addEdge e).dropState id)
    | none => bypassFrom? g (id + 1) rest

def dropPassThrough? (g : Graph) : Option Graph :=
  g.bypassFrom? 0 g.states

-- Whether the ends of an edge run one after the other and nothing else comes between.
def isChain (g : Graph) (e : Edge) : Bool :=
  e.isPlain && e.source ≠ e.target && e.target ≠ g.start && g.outDegree e.source = 1 &&
    g.inDegree e.target = 1

-- Appends the nodes of the target of an edge to its source and removes the target.
def fuse (g : Graph) (position : Nat) (e : Edge) : Outcome Graph := do
  let tail ← g.state e.target
  let _ ← g.state e.source
  let edges := g.edges.eraseIdx position
  let moved := edges.map fun other =>
    if other.source = e.target then { other with source := e.source } else other
  let states := g.states.modify e.source fun s => { s with nodes := s.nodes ++ tail.nodes }
  return { g with states, edges := moved }.dropState e.target

def fuseFrom? (g : Graph) : Nat → List Edge → Outcome (Option Graph)
  | _, [] => .ok none
  | position, e :: rest =>
    if g.isChain e then do return some (← g.fuse position e) else fuseFrom? g (position + 1) rest

def fuseChain? (g : Graph) : Outcome (Option Graph) :=
  g.fuseFrom? 0 g.edges

def step? (g : Graph) : Outcome (Option Graph) := do
  match ← g.dropEmptyStart? with
  | some g => return some g
  | none =>
    match g.dropPassThrough? with
    | some g => return some g
    | none => g.fuseChain?

def collapseWith : Nat → Graph → Outcome Graph
  | 0, g => .ok g
  | fuel + 1, g => do
    match ← g.step? with
    | some g => collapseWith fuel g
    | none => return g

def collapse (g : Graph) : Outcome Graph :=
  collapseWith (g.states.length + 1) g

mutual

def simplify : Graph → Outcome Graph
  | ⟨name, arrays, constants, symbols, states, edges, start, args⟩ => do
    let states ← simplifyStates states
    collapse ⟨name, arrays, constants, symbols, states, edges, start, args⟩

def simplifyStates : List State → Outcome (List State)
  | [] => .ok []
  | ⟨label, nodes⟩ :: rest => do
    let nodes ← simplifyNodes nodes
    return ⟨label, nodes⟩ :: (← simplifyStates rest)

def simplifyNodes : List Node → Outcome (List Node)
  | [] => .ok []
  | .copy source target :: rest => do return .copy source target :: (← simplifyNodes rest)
  | .map m :: rest => do return .map m :: (← simplifyNodes rest)
  | .call site callee :: rest => do
    let callee ← simplify callee
    return .call site callee :: (← simplifyNodes rest)

end

def simplifyCounting (g : Graph) : Outcome (Graph × Nat) := do
  let simpler ← g.simplify
  if g.states.length < simpler.states.length then stop .overflow
  return (simpler, g.states.length - simpler.states.length)

end TraceFlow.Graph
