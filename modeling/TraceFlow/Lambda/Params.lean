import TraceFlow.Lambda.Basic

set_option autoImplicit false

namespace TraceFlow

def Param.text : Param → String
  | .none => "None"
  | .bool v => Text.truth v
  | .int v => Text.integer v
  | .float v => Decimal.text v
  | .str v => v
  | .ints vs => Text.integers vs
  | .optInts vs => Text.bracketed (vs.map fun v => Text.optional (v.map Text.integer))
  | .elem v => v.name
  | .lambda _ => "<jaxpr>"
  | .lambdas fs => "<" ++ fs.length.repr ++ " jaxprs>"

abbrev Params := Dict Param

namespace Params

def text (ps : Params) : String :=
  " ".intercalate (ps.entries.map fun (name, p) => name ++ "=" ++ p.text)

def isNone (ps : Params) (name : String) : Bool :=
  match ps.get? name with
  | none | some .none => true
  | _ => false

def require (ps : Params) (name : String) : Outcome Param :=
  match ps.get? name with
  | some p => .ok p
  | none => refuse (.invariant s!"missing equation parameter '{name}'")

def mismatch {α : Type} (name expected : String) (found : Param) : Outcome α :=
  refuse (.invariant s!"equation parameter '{name}' should be {expected}, found {found.text}")

def int (ps : Params) (name : String) : Outcome Int := do
  match ← ps.require name with
  | .int v => return v
  | other => mismatch name "an integer" other

def size (ps : Params) (name : String) : Outcome Nat := do
  let v ← ps.int name
  if v < 0 then refuse (.invariant s!"parameter '{name}' is negative: {Text.integer v}")
  return v.toNat

def float (ps : Params) (name : String) : Outcome Float := do
  match ← ps.require name with
  | .float v => return v
  | .int v => return (Int64.ofInt v).toFloat
  | other => mismatch name "a float" other

def bool (ps : Params) (name : String) : Outcome Bool := do
  match ← ps.require name with
  | .bool v => return v
  | other => mismatch name "a bool" other

def str (ps : Params) (name : String) : Outcome String := do
  match ← ps.require name with
  | .str v => return v
  | other => mismatch name "a string" other

def ints (ps : Params) (name : String) : Outcome (List Int) := do
  match ← ps.require name with
  | .ints vs => return vs
  | other => mismatch name "an integer list" other

def sizes (ps : Params) (name : String) : Outcome (List Nat) := do
  (← ps.ints name).mapM fun v =>
    if v < 0 then refuse (.invariant s!"parameter '{name}' has a negative entry {Text.integer v}")
    else .ok v.toNat

def optInts (ps : Params) (name : String) : Outcome (List (Option Int)) := do
  match ← ps.require name with
  | .optInts vs => return vs
  | .ints vs => return vs.map some
  | other => mismatch name "an optional integer list" other

def elem (ps : Params) (name : String) : Outcome ElemType := do
  match ← ps.require name with
  | .elem v => return v
  | other => mismatch name "a dtype" other

def lambda (ps : Params) (name : String) : Outcome Lambda := do
  match ← ps.require name with
  | .lambda f => return f
  | other => mismatch name "a jaxpr" other

def lambdas (ps : Params) (name : String) : Outcome (List Lambda) := do
  match ← ps.require name with
  | .lambdas fs => return fs
  | other => mismatch name "a list of jaxprs" other

end Params

def Equation.text (e : Equation) : String :=
  let outputs := " ".intercalate (e.outputs.map Var.typedText)
  let params := if e.params.isEmpty then "" else "[" ++ Params.text e.params ++ "]"
  outputs ++ " = " ++ e.primitive ++ params ++
    String.join (e.inputs.map fun atom => " " ++ atom.text)

def Lambda.text (f : Lambda) : String :=
  let vars (vs : List Var) := " ".intercalate (vs.map Var.typedText)
  let equations := String.join (f.equations.map fun e => "    " ++ e.text ++ "\n")
  let outputs := ", ".intercalate (f.outputs.map Atom.text)
  "\x7b lambda " ++ vars f.constVars ++ " ; " ++ vars f.inputs ++ ". let\n" ++ equations ++
    "  in (" ++ outputs ++ ") \x7d"

end TraceFlow
