import TraceFlow.Dict
import TraceFlow.Naming
import TraceFlow.Tensor

set_option autoImplicit false

namespace TraceFlow

inductive VarKind where
  | traced
  -- Stands for the array of that name.
  | named (name : String)
  -- An output nobody reads.
  | dropped
  deriving DecidableEq, Repr

structure Var where
  id : Nat
  kind : VarKind
  shape : List Nat
  elem : ElemType
  deriving DecidableEq, Repr

namespace Var

def rank (v : Var) : Nat :=
  v.shape.length

def isDropped (v : Var) : Bool :=
  v.kind = .dropped

def explicitName? (v : Var) : Option String :=
  match v.kind with
  | .named name => some name
  | _ => none

def text (v : Var) : String :=
  match v.kind with
  | .traced => "jax" ++ v.id.repr
  | .named name => name
  | .dropped => "_"

def typedText (v : Var) : String :=
  v.text ++ ":" ++ v.elem.name ++ Text.naturals v.shape

end Var

inductive Atom where
  | var (v : Var)
  | literal (s : Scalar)

namespace Atom

def shape : Atom → List Nat
  | .var v => v.shape
  | .literal _ => []

def elem : Atom → ElemType
  | .var v => v.elem
  | .literal s => s.elem

def isLiteral : Atom → Bool
  | .literal _ => true
  | .var _ => false

def text : Atom → String
  | .var v => v.text
  | .literal s => s.code

end Atom

mutual

inductive Param where
  | none
  | bool (value : Bool)
  | int (value : Int)
  | float (value : Float)
  | str (value : String)
  | ints (values : List Int)
  | optInts (values : List (Option Int))
  | elem (value : ElemType)
  | lambda (value : Lambda)
  | lambdas (values : List Lambda)

structure Equation where
  primitive : String
  inputs : List Atom
  outputs : List Var
  params : Dict Param
  effectful : Bool

structure Lambda where
  inputs : List Var
  constVars : List Var
  consts : List Tensor
  effects : List String
  equations : List Equation
  outputs : List Atom

end

namespace Lambda

mutual

def depth : Lambda → Nat
  | ⟨_, _, _, _, equations, _⟩ => equationsDepth equations

def equationsDepth : List Equation → Nat
  | [] => 0
  | ⟨_, _, _, ⟨params⟩, _⟩ :: rest => max (paramsDepth params) (equationsDepth rest)

def paramsDepth : List (String × Param) → Nat
  | [] => 0
  | (_, .lambda f) :: rest => max (depth f + 1) (paramsDepth rest)
  | (_, .lambdas fs) :: rest => max (lambdasDepth fs + 1) (paramsDepth rest)
  | (_, _) :: rest => paramsDepth rest

def lambdasDepth : List Lambda → Nat
  | [] => 0
  | f :: rest => max (depth f) (lambdasDepth rest)

end

def close (f : Lambda) : Outcome Lambda :=
  if f.constVars.length ≠ f.consts.length then
    refuse (.invariant (s!"jaxpr declares {f.constVars.length} constants but " ++
      s!"{f.consts.length} values were given"))
  else .ok f

end Lambda

end TraceFlow
