import TraceFlow.Lowering.Rule
import TraceFlow.Routine

set_option autoImplicit false

namespace TraceFlow.Nested

def embed (state : Nat) (child : Draft) (inputs outputs : List String) : LowerM Unit := do
  if child.inputs.length ≠ inputs.length ∨ child.outputs.length ≠ outputs.length then
    refuse
      (.invariant (s!"nested SDFG '{child.graph.name}' takes {child.inputs.length} inputs and " ++
      s!"{child.outputs.length} outputs, bound to {inputs.length} and {outputs.length}"))
  let routine ← Builder.lift (child.finish true)
  let site : CallSite :=
    { label := routine.graph.name
      inputs := Dict.ofList (child.inputs.zip inputs)
      outputs := Dict.ofList (child.outputs.zip outputs)
      symbols := {} }
  emit state (.call site routine.graph)

def literalName (pattern : String) (i : Nat) : String :=
  "__const_" ++ pattern ++ "_literal_" ++ i.repr

def promoteFrom (pattern : String) : Nat → List (Option String × Atom) → LowerM (List String)
  | _, [] => return []
  | i, (name?, atom) :: rest => do
    let name ← match name?, atom with
      | some name, _ => pure name
      | none, .literal s => do
        let value ← Builder.lift (Tensor.ofScalar s)
        Builder.changeGraph fun g => g.addConstant (literalName pattern i) value
        pure (literalName pattern i)
      | none, .var v => refuse (.invariant s!"variable '{v.text}' was not resolved to an array")
    return name :: (← promoteFrom pattern (i + 1) rest)

def promote (names : List (Option String)) (atoms : List Atom) (pattern : String) :
    LowerM (List String) :=
  promoteFrom pattern 0 (names.zip atoms)

def allNames? : List (Option String) → Option (List String)
  | [] => some []
  | none :: _ => none
  | some name :: rest => (allNames? rest).map (name :: ·)

def call (kit : Toolkit) : Apply := fun names outputs e state => do
  ["in_shardings", "out_shardings"].forM fun key => do
    if !Params.isNone e.params key then refuse (.unsupported s!"pjit with '{key}'")
  match allNames? names with
  | none => refuse (.unsupported "literal inputs to pjit")
  | some inputs =>
    let callee ← Builder.lift (Params.lambda e.params "jaxpr")
    let name ← if e.params.contains "name" then Builder.lift (Params.str e.params "name") else
      pure "fun"
    let label := "pjit_" ++ Naming.sanitized name ++ "__" ++ "_".intercalate outputs
    let child ← kit.lower callee (some label)
    embed state child inputs outputs
    return none

-- What the branches are chosen by, and the state they start from.
def selection (pattern : String) (name? : Option String) (selector : Atom) (state : Nat) :
    LowerM (Operand × Nat) := do
  match name?, selector with
  | none, .literal s => return (.const s.value.toInt64.toInt, state)
  | some name, _ =>
    let symbol := name ++ "_symb"
    let read := Binding.element (.element name [.constant 0])
    let fork ← Builder.append (some (pattern ++ "_fork")) none (Dict.ofList [(symbol, read)])
      (some state)
    Builder.changeGraph fun g => .ok (g.addSymbol symbol .int64)
    return (.symbol symbol, fork)
  | none, .var _ => refuse (.invariant "the cond selector has no array")

def branchStates (kit : Toolkit) (pattern : String) (operand : Operand) (from_ : Nat)
    (inputs outputs : List String) : Nat → List Lambda → LowerM (List Nat)
  | _, [] => return []
  | i, branch :: rest => do
    let child ← kit.lower branch (some (pattern ++ "_sdfg_branch_" ++ i.repr))
    let state ← Builder.append (some (pattern ++ "_state_branch_" ++ i.repr))
      (some ⟨operand, i⟩) {} (some from_)
    embed state child inputs outputs
    return state :: (← branchStates kit pattern operand from_ inputs outputs (i + 1) rest)

-- A switch over the branches. No branch is taken for a selector out of range.
def cond (kit : Toolkit) : Apply := fun names outputs e state => do
  match names, e.inputs with
  | name? :: names, selector :: atoms =>
    if selector.elem = .bool then refuse (.unsupported "cond with a boolean selector")
    let branches ← Builder.lift (Params.lambdas e.params "branches")
    let pattern := (← Builder.lift ((← Builder.graph).state state)).label
    let inputs ← promote names atoms pattern
    let (operand, from_) ← selection pattern name? selector state
    match ← branchStates kit pattern operand from_ inputs outputs 0 branches with
    | [] => refuse (.invariant "cond without branches")
    | first :: others =>
      let join ← Builder.append (some (pattern ++ "_join")) none {} (some first)
      Builder.changeGraph fun g =>
        .ok (others.foldl (fun g source => g.addEdge { source, target := join }) g)
      return some join
  | _, _ => refuse (.invariant "cond without a selector")

def rules : List Rule :=
  [⟨"cond", cond⟩, ⟨"pjit", call⟩]

end TraceFlow.Nested
