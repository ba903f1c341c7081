import TraceFlow.Lowering.Arithmetic
import TraceFlow.Lowering.Gather
import TraceFlow.Lowering.Movement
import TraceFlow.Lowering.Nested

set_option autoImplicit false

namespace TraceFlow

def RuleBook.builtin : RuleBook :=
  RuleBook.ofRules (Arithmetic.rules ++ Movement.rules ++ [Gather.rule] ++ Nested.rules)

namespace Lowering

open Builder

def constantMark : String := "__const_"

-- Stands before the results of a function without equations.
def aliasMark : String := "_zero_equation_output_for_"

def bindConstants : List (String × Tensor) → LowerM Unit
  | [] => return ()
  | (name, value) :: rest => do
    changeGraph fun g => g.bindConstant name value
    bindConstants rest

def createConstants (f : Lambda) : LowerM Unit := do
  if !f.consts.isEmpty then
    let names ← createVars f.constVars constantMark
    bindConstants (names.zip f.consts)

def settle (primitive : String) (state : Nat) (reported? : Option Nat) : LowerM Unit := do
  let d ← draft
  match reported? with
  | some terminal => setDraft { d with terminal }
  | none =>
    if d.terminal ≠ state then
      refuse (.invariant
        s!"translator for '{primitive}' moved the terminal state without reporting it")
  lift (← draft).check

def lowerEquation (kit : Toolkit) (e : Equation) : LowerM Unit := do
  if e.effectful then refuse (.unsupported "equation has side effects")
  let inputs ← resolve { preventCreation := true, allowLiterals := true } e.inputs
  let outputs ← createVars e.outputs ""
  match kit.rule? e.primitive with
  | none => refuse (.unsupported s!"no translator known to handle '{e.primitive}'")
  | some apply =>
    let label := e.primitive ++ "_" ++ "_".intercalate outputs
    let state ← append (some label) none {} none
    let reported? ← apply inputs outputs e state
    settle e.primitive state reported?

def inEquation {α : Type} (e : Equation) (step : LowerM α) : LowerM α :=
  fun b => match step b with
    | (.error failure, b) => (.error (failure.inEquation e.text), b)
    | done => done

def lowerEquations (kit : Toolkit) : Nat → List Equation → LowerM Nat
  | done, [] => return done
  | done, e :: rest => do
    if e.outputs.any Var.isDropped then
      if !e.outputs.all Var.isDropped then
        inEquation e (refuse (.invariant "equation mixes dropped and used outputs"))
      lowerEquations kit done rest
    else
      inEquation e (lowerEquation kit e)
      lowerEquations kit (done + 1) rest

def addAlias (state : Nat) (v : Var) : LowerM String := do
  let name ← lookup v
  let copy ← addArray v aliasMark false
  let d ← array name
  changeGraph fun g => g.addNode state (.copy (.full name d) (.full copy d))
  return copy

-- An output array for each atom, one per variable.
def addAliases (state : Nat) (known : List (Var × String)) :
    List Atom → LowerM (List String × List (Var × String))
  | [] => return ([], known)
  | .literal s :: _ =>
    refuse (.unsupported s!"literal output '{s.code}' of an equation-free jaxpr")
  | .var v :: rest => do
    match known.find? fun entry => entry.1.id = v.id with
    | some (_, name) =>
      let (names, known) ← addAliases state known rest
      return (name :: names, known)
    | none =>
      let name ← addAlias state v
      let (names, known) ← addAliases state (known ++ [(v, name)]) rest
      return (name :: names, known)

def aliasOutputs (f : Lambda) : LowerM (List String) := do
  let d ← draft
  if d.terminal ≠ d.start then
    refuse (.invariant "equation-free jaxpr but the terminal state moved")
  let (names, known) ← addAliases d.start [] f.outputs
  known.forM fun entry => unmapVariable entry.1
  return names

def enter (f : Lambda) : LowerM Unit := do
  createConstants f
  let inputs ← createVars f.inputs ""
  setDraft { (← draft) with inputs? := some inputs }

def lowerBody (kit : Toolkit) (f : Lambda) : LowerM (List String) := do
  enter f
  match ← lowerEquations kit 0 f.equations with
  | 0 => aliasOutputs f
  | _ + 1 =>
    let names ← resolve { preventCreation := true } f.outputs
    return names.filterMap id

def lowerWith (kit : Toolkit) (f : Lambda) (name? : Option String) : LowerM Draft := do
  if !f.effects.isEmpty then
    refuse (.unsupported s!"jaxpr with side effects {Text.quotedList f.effects}")
  push name?
  let outcome ← attempt (lowerBody kit f)
  match ← pop with
  | none => refuse (.invariant "translation context vanished")
  | some d =>
    let outputs ← lift outcome
    return { d with outputs? := some outputs }

-- The toolkit of rules that may go down `fuel` levels, through functions and through each other.
def toolkit (book : RuleBook) : Nat → Toolkit
  | 0 =>
    { lower := fun _ _ => refuse (.invariant "functions are nested too deeply")
      rule? := fun _ => none }
  | fuel + 1 =>
    let inner := toolkit book fuel
    { lower := lowerWith inner
      rule? := fun primitive => (book.get? primitive).map fun rule => rule.apply inner }

-- Levels that are enough for a function: at each depth, a rule may hand on to all the others.
def levels (book : RuleBook) (f : Lambda) : Nat :=
  (f.depth + 1) * (book.size + 2)

def lower (book : RuleBook) (f : Lambda) (name? : Option String) : LowerM Draft :=
  (toolkit book (levels book f + 1)).lower f name?

end Lowering

end TraceFlow
