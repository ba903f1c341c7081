import TraceFlow.Graph.Basic

set_option autoImplicit false

namespace TraceFlow.Graph

def invalid {α : Type} (place reason : String) : Outcome α :=
  refuse (.validation (place ++ ": " ++ reason))

def place (g : Graph) : String :=
  s!"SDFG '{g.name}'"

def inBounds (extent : Nat) : Subscript → Bool
  | .range low high => 0 ≤ low && high ≤ signedWord extent && low ≤ high
  | .at index => !index.isConstant || (0 ≤ index.offset && index.offset < signedWord extent)

def checkSubscripts (g : Graph) (locals : List String) (access : Access) :
    Nat → List (Subscript × Nat) → Outcome Unit
  | _, [] => .ok ()
  | dim, (subscript, extent) :: rest => do
    if !inBounds extent subscript then
      let text ← access.text
      invalid g.place s!"memlet {text} is out of bounds in dimension {dim}"
    subscript.symbols.forM fun symbol => do
      if symbol ∉ locals ∧ ¬ g.symbols.contains symbol then
        let text ← access.text
        invalid g.place s!"memlet {text} uses unknown symbol '{symbol}'"
    checkSubscripts g locals access (dim + 1) rest

def checkAccess (g : Graph) (locals : List String) (access : Access) : Outcome Unit := do
  match g.array? access.array with
  | none =>
    let text ← access.text
    invalid g.place s!"memlet {text} references an unknown array"
  | some d =>
    if access.subset.length ≠ d.rank then
      let text ← access.text
      invalid g.place (s!"memlet {text} has rank {access.subset.length} but " ++
        s!"'{access.array}' has rank {d.rank}")
    checkSubscripts g locals access 0 (access.subset.zip d.shape)

def isConstantIndex : Subscript → Bool
  | .at index => index.isConstant
  | .range _ _ => false

def checkBinding (g : Graph) (symbol : String) (binding : Binding) : Outcome Unit := do
  if g.arrays.contains symbol then invalid g.place s!"symbol '{symbol}' shadows an array"
  match binding with
  | .const _ => return
  | .element access =>
    checkAccess g [] access
    if !access.subset.all isConstantIndex then
      invalid g.place s!"assignment of '{symbol}' must read one constant element"

def checkEdge (g : Graph) (e : Edge) : Outcome Unit := do
  if !g.hasState e.source || !g.hasState e.target then
    invalid g.place s!"edge {stateText e.source} -> {stateText e.target} has a dangling end"
  e.assignments.entries.forM fun (symbol, binding) => checkBinding g symbol binding

def checkCopy (g : Graph) (id : Nat) (source target : Access) : Outcome Unit := do
  checkAccess g [] source
  checkAccess g [] target
  let read ← source.volume
  let written ← target.volume
  if read ≠ written then
    let source ← source.text
    let target ← target.text
    invalid s!"{g.place}, state {stateText id}"
      s!"copy {source} -> {target} moves {read} into {written} elements"

def checkAxes (place : String) : List String → List Axis → Outcome (List String)
  | params, [] => .ok params
  | params, axis :: rest => do
    if axis.high < axis.low then invalid place s!"empty range {axis.text}"
    if axis.param ∈ params then invalid place s!"map parameter '{axis.param}' is used twice"
    checkAxes place (params ++ [axis.param]) rest

def checkMap (g : Graph) (id : Nat) (m : MapNode) : Outcome Unit := do
  let place := s!"{g.place}, state {stateText id}, tasklet '{m.label}'"
  if m.outputs.isEmpty then invalid place "tasklet has no output"
  if !m.code.toList.contains '=' then invalid place s!"code `{m.code}` is not an assignment"
  let params ← checkAxes place [] m.axes
  m.dynamic.entries.forM fun (symbol, access) => do
    checkAccess g [] access
    if (← access.volume) ≠ 1 then
      invalid place s!"dynamic input '{symbol}' must read a single element"
  m.accesses.forM (checkAccess g (params ++ m.dynamic.keys))

def insertAll (names : List String) (set : Dict Unit) : Dict Unit :=
  names.foldl (fun set name => set.insert name ()) set

def freeSymbols (g : Graph) : List String :=
  let used := g.symbols.keys ++ g.edges.flatMap Edge.guardSymbols ++
    g.states.flatMap fun s => s.nodes.flatMap Node.symbols
  let assigned := g.edges.flatMap fun e => e.assignments.keys
  (insertAll used {}).keys.filter fun symbol => symbol ∉ assigned

def checkConnector (g callee : Graph) (place inner outer : String) : Outcome Unit := do
  match g.array? outer, callee.array? inner with
  | none, _ => invalid place s!"outer array '{outer}' does not exist"
  | some _, none => invalid place s!"connector '{inner}' is not an array of the child"
  | some outerArray, some innerArray =>
    if innerArray.transient then
      invalid place s!"connector '{inner}' is transient inside the child"
    let innerCount ← innerArray.count
    let outerCount ← outerArray.count
    if innerCount ≠ outerCount ∨ innerArray.elem ≠ outerArray.elem then
      invalid place s!"connector '{inner}' does not match outer '{outer}'"

def checkCall (g : Graph) (id : Nat) (site : CallSite) (callee : Graph) : Outcome Unit := do
  let place := s!"{g.place}, state {stateText id}, nested '{site.label}'"
  (site.inputs.entries ++ site.outputs.entries).forM fun (inner, outer) =>
    checkConnector g callee place inner outer
  callee.freeSymbols.forM fun symbol => do
    if !site.symbols.contains symbol then invalid place s!"child symbol '{symbol}' is not mapped"

def checkConstant (g : Graph) (name : String) : Outcome Unit :=
  match g.array? name with
  | some d => if d.transient then .ok () else invalid g.place s!"constant '{name}' is not transient"
  | none => invalid g.place s!"constant '{name}' has no descriptor"

def checkArgument (g : Graph) (seen : List String) (name : String) : Outcome Unit := do
  if name ∈ seen then invalid g.place s!"argument '{name}' is listed twice"
  match g.array? name with
  | some d => if d.transient then invalid g.place s!"argument '{name}' is transient"
  | none => invalid g.place s!"argument '{name}' is not an array"

def checkArguments (g : Graph) : List String → List String → Outcome Unit
  | _, [] => .ok ()
  | seen, name :: rest => do
    checkArgument g seen name
    checkArguments g (name :: seen) rest

def checkSignature (g : Graph) : Outcome Unit := do
  if !g.args.isEmpty then
    checkArguments g [] g.args
    g.arrays.entries.forM fun (name, d) => do
      if !d.transient ∧ name ∉ g.args then
        invalid g.place s!"non-transient array '{name}' is not an argument"

def checkStates (g : Graph) : Outcome Unit := do
  if !g.hasState g.start then
    invalid g.place s!"start state {stateText g.start} does not exist"
  g.edges.forM (checkEdge g)
  let reached := g.reachable.length
  if reached ≠ g.states.length then
    invalid g.place (s!"{g.states.length - reached} of {g.states.length} states " ++
      "are unreachable from the start state")

mutual

def check : Graph → Outcome Unit
  | ⟨name, arrays, constants, symbols, states, edges, start, args⟩ => do
    let g : Graph := ⟨name, arrays, constants, symbols, states, edges, start, args⟩
    checkStates g
    checkStateList g 0 states
    constants.keys.forM (checkConstant g)
    checkSignature g

def checkStateList (g : Graph) : Nat → List State → Outcome Unit
  | _, [] => .ok ()
  | id, ⟨_, nodes⟩ :: rest => do
    checkNodes g id nodes
    checkStateList g (id + 1) rest

def checkNodes (g : Graph) (id : Nat) : List Node → Outcome Unit
  | [] => .ok ()
  | .copy source target :: rest => do
    checkCopy g id source target
    checkNodes g id rest
  | .map m :: rest => do
    checkMap g id m
    checkNodes g id rest
  | .call site callee :: rest => do
    check callee
    checkCall g id site callee
    checkNodes g id rest

end

end TraceFlow.Graph
