import TraceFlow.Lowering.Builder

set_option autoImplicit false

namespace TraceFlow

-- Fills the state of an equation. Inputs that are literals have no array.
abbrev Apply := List (Option String) → List String → Equation → Nat → LowerM (Option Nat)

structure Toolkit where
  lower : Lambda → Option String → LowerM Draft
  rule? : String → Option Apply

structure Rule where
  primitive : String
  apply : Toolkit → Apply

abbrev RuleBook := Dict Rule

namespace RuleBook

-- Adds a rule; an earlier rule of the primitive is replaced only if that is asked for.
def register (book : RuleBook) (rule : Rule) (overwrite : Bool) : Outcome RuleBook :=
  if !overwrite && book.contains rule.primitive then
    refuse (.invariant (s!"a translator for '{rule.primitive}' is already registered, " ++
      "pass overwrite to replace it"))
  else .ok (book.insert rule.primitive rule)

def ofRules (rules : List Rule) : RuleBook :=
  Dict.ofList (rules.map fun rule => (rule.primitive, rule))

def text (book : RuleBook) : String :=
  "PrimitiveTranslatorRegistry \x7b primitives: " ++ Text.quotedList (Dict.keys book) ++ " \x7d"

end RuleBook

def firstOutput (outputs : List String) (e : Equation) : LowerM (String × Var) :=
  match outputs, e.outputs with
  | name :: _, v :: _ => return (name, v)
  | _, _ => stop .outOfRange

def emit (state : Nat) (node : Node) : LowerM Unit :=
  Builder.changeGraph fun g => g.addNode state node

end TraceFlow
