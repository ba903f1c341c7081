import TraceFlow.Lowering.Draft

set_option autoImplicit false

namespace TraceFlow

structure Builder where
  -- The innermost draft comes first.
  drafts : List Draft
  mapped : Nat
  unnamed : Nat

abbrev LowerM := ExceptT Failure (StateM Builder)

structure ResolveOptions where
  preventCreation : Bool := false
  onlyCreation : Bool := false
  allowLiterals : Bool := false
  record : Bool := false
  before : String := ""

namespace Builder

def new (unnamed : Nat) : Builder :=
  ⟨[], 0, unnamed⟩

def lift {α : Type} (o : Outcome α) : LowerM α :=
  fun b => (o, b)

def attempt {α : Type} (step : LowerM α) : LowerM (Outcome α) :=
  fun b =>
    let (outcome, b) := step b
    (.ok outcome, b)

def draft : LowerM Draft := do
  match (← get).drafts with
  | d :: _ => return d
  | [] => refuse (.invariant "builder has no active translation context")

def setDraft (d : Draft) : LowerM Unit :=
  modify fun b => { b with drafts := d :: b.drafts.tail }

def graph : LowerM Graph := do
  return (← draft).graph

def changeGraph (change : Graph → Outcome Graph) : LowerM Unit := do
  let d ← draft
  setDraft { d with graph := ← lift (change d.graph) }

def isRoot : LowerM Bool := do
  match (← get).drafts with
  | [] => refuse (.invariant "builder is not allocated")
  | [_] => return true
  | _ => return false

def nextUnnamed : LowerM String := do
  let b ← get
  set { b with unnamed := b.unnamed + 1 }
  return "unnamed_SDFG_" ++ b.unnamed.repr

def push (name? : Option String) : LowerM Unit := do
  let name ← match name? with
    | some name =>
      if Naming.isIdentifier name then pure name
      else refuse (.naming s!"'{name}' is not a valid SDFG name")
    | none => nextUnnamed
  modify fun b => { b with drafts := Draft.new name :: b.drafts }

def pop : LowerM (Option Draft) := do
  let b ← get
  match b.drafts with
  | [] => return none
  | [d] =>
    set { b with drafts := [], mapped := 0 }
    return some d
  | d :: rest =>
    set { b with drafts := rest }
    return some d

def array (name : String) : LowerM Descriptor := do
  match (← graph).array? name with
  | some d => return d
  | none => refuse (.naming s!"array '{name}' is not known")

-- Adds a state with an edge from `after?`, or else from the terminal state.
def append (label? : Option String) (guard? : Option Guard) (assignments : Dict Binding)
    (after? : Option Nat) : LowerM Nat := do
  match label? with
  | some label =>
    if !Naming.isIdentifier label then
      refuse (.naming s!"can not create a state with the invalid label '{label}'")
  | none => pure ()
  let d ← draft
  let source := after?.getD d.terminal
  if after?.isSome && !d.graph.hasState source then
    refuse (.invariant s!"state {stateText source} does not exist")
  let id := d.graph.nextState
  let label := label?.getD ("state_" ++ id.repr)
  let graph := (d.graph.addState label).addEdge { source, target := id, guard?, assignments }
  setDraft { d with graph, terminal := if source = d.terminal then id else d.terminal }
  return id

def freshFrom (taken : String → Bool) : Nat → Nat → String
  | 0, n => Naming.fresh n
  | fuel + 1, n =>
    let name := Naming.fresh n
    if taken name then freshFrom taken fuel (n + 1) else name

def proposal (v : Var) (before : String) : LowerM String := do
  let d ← draft
  match d.nameOf? v, v.explicitName? with
  | some name, _ => return name
  | none, some name => return name
  | none, none =>
    let taken name := d.graph.arrays.contains (before ++ name)
    return freshFrom taken d.graph.arrays.size (← get).mapped

def mapVariable (v : Var) (name : String) : LowerM Unit := do
  let d ← draft
  match d.nameOf? v with
  | some existing =>
    if existing ≠ name then
      refuse (.naming
        s!"can not change the mapping of '{v.text}' from '{existing}' to '{name}'")
  | none =>
    if !d.graph.arrays.contains name then
      refuse (.naming s!"mapping '{v.text}' -> '{name}': the array is unknown")
    if Naming.isReserved name then
      refuse (.naming s!"mapping '{v.text}' -> '{name}': forbidden name")
    modify fun b =>
      { b with
        drafts := { d with names := (v.id, name) :: d.names } :: b.drafts.tail
        mapped := b.mapped + 1 }

def unmapVariable (v : Var) : LowerM Unit := do
  let d ← draft
  if (d.nameOf? v).isSome then
    modify fun b =>
      { b with
        drafts := { d with names := d.names.filter fun entry => entry.1 ≠ v.id } :: b.drafts.tail
        mapped := b.mapped - 1 }

-- The shape of the array of a variable: one without dimensions gets one of extent 1.
def arrayShape (v : Var) : List Nat :=
  if v.shape.isEmpty then [1] else v.shape

def checkProposal (v : Var) (name : String) : LowerM Unit := do
  let refused {α : Type} (why : String) : LowerM α :=
    refuse (.naming s!"add_array({v.text}): the proposed name '{name}' is {why}")
  if (← graph).arrays.contains name then refused "used"
  if !Naming.isIdentifier name then refused "invalid"
  if Naming.isReserved name then refused "forbidden"

def addArray (v : Var) (before : String) (record : Bool) : LowerM String := do
  if v.isDropped then refuse (.naming "can not create an array for a drop variable")
  let name := before ++ (← proposal v before)
  checkProposal v name
  let d ← lift (Descriptor.dense (arrayShape v) v.elem)
  changeGraph fun g => g.addArray name d
  if record then
    match ← attempt (mapVariable v name) with
    | .ok () => pure ()
    | .error failure =>
      changeGraph fun g => .ok (g.removeArray name)
      throw failure
  return name

def lookup? (v : Var) : LowerM (Option String) := do
  let d ← draft
  match d.nameOf? v with
  | none => return none
  | some name =>
    if !d.graph.arrays.contains name then
      refuse (.invariant s!"'{v.text}' maps to '{name}' but no such array exists")
    return some name

def lookup (v : Var) : LowerM String := do
  match ← lookup? v with
  | some name => return name
  | none => refuse (.naming s!"the variable '{v.text}' was never registered")

def resolveVar (options : ResolveOptions) (v : Var) : LowerM String := do
  match ← lookup? v with
  | none =>
    if options.preventCreation then
      refuse (.naming s!"'prevent_creation' given but '{v.text}' has no array")
    addArray v options.before options.record
  | some name =>
    if options.onlyCreation then
      refuse (.naming s!"'only_creation' given but '{v.text}' already exists")
    return name

def resolveAtom (options : ResolveOptions) : Atom → LowerM (Option String)
  | .var v => do return some (← resolveVar options v)
  | .literal s =>
    if options.allowLiterals then return none
    else refuse (.naming
      s!"encountered the literal '{s.code}' where only variables are accepted")

def resolveAll (options : ResolveOptions) : List Atom → LowerM (List (Option String))
  | [] => return []
  | atom :: rest => do
    let first ← resolveAtom options atom
    return first :: (← resolveAll options rest)

def resolve (options : ResolveOptions) (atoms : List Atom) : LowerM (List (Option String)) := do
  if options.onlyCreation && options.preventCreation then
    refuse (.invariant "specified both 'only_creation' and 'prevent_creation'")
  resolveAll options atoms

def createVars (vs : List Var) (before : String) : LowerM (List String) := do
  let names ← resolve { onlyCreation := true, record := true, before } (vs.map .var)
  return names.filterMap id

end Builder

end TraceFlow
