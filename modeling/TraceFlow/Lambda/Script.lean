import TraceFlow.Lambda.Params
import TraceFlow.Lambda.Trace

set_option autoImplicit false

namespace TraceFlow

-- An array written out: its elements in row-major order, then how to lay them out.
structure ArraySpec where
  elem : ElemType
  shape : List Nat
  data : List Datum
  strides? : Option (List Nat)
  storage? : Option Storage

def ArraySpec.build (a : ArraySpec) : Outcome Tensor := do
  let dense ← Tensor.ofValues a.elem a.shape a.data
  let t ← match a.strides? with
    | some strides => dense.relayout strides
    | none => .ok dense
  return t.withStorage (a.storage?.getD .cpuHeap)

namespace Script

inductive AtomSpec where
  | label (name : String)
  | literal (value : Scalar)

structure VarSpec where
  label? : Option String
  shape : List Nat
  elem : ElemType
  kind : VarKind

-- Either labels for the arguments of the call, or inputs of fixed type.
inductive Inputs where
  | labels (names : List String)
  | declared (vars : List VarSpec)

abbrev Scope := Dict Var

def lookup (scope : Scope) : AtomSpec → TraceM Atom
  | .literal value => return .literal value
  | .label name =>
    match scope.get? name with
    | some v => return .var v
    | none => refuse (.argument s!"unknown label '{name}'")

def lookupAll (scope : Scope) : List AtomSpec → TraceM (List Atom)
  | [] => return []
  | atom :: rest => do
    let first ← lookup scope atom
    return first :: (← lookupAll scope rest)

def VarSpec.create (spec : VarSpec) : TraceM Var :=
  match spec.kind with
  | .traced => Var.trace spec.shape spec.elem
  | .dropped => Var.drop spec.shape spec.elem
  | .named name => Var.named name spec.shape spec.elem

def createAll : List VarSpec → Scope → TraceM (List Var × Scope)
  | [], scope => return ([], scope)
  | spec :: rest, scope => do
    let v ← spec.create
    let scope := match spec.label? with
      | some label => scope.insert label v
      | none => scope
    let (vs, scope) ← createAll rest scope
    return (v :: vs, scope)

def createInputs (labels : List String) : List ArgSpec → Scope → TraceM (List Var × Scope)
  | [], scope => return ([], scope)
  | arg :: rest, scope => do
    let v ← Var.trace arg.shape arg.elem
    let scope := match labels with
      | label :: _ => scope.insert label v
      | [] => scope
    let (vs, scope) ← createInputs labels.tail rest scope
    return (v :: vs, scope)

def createConsts : List (String × ArraySpec) → Scope → TraceM (List (Var × Tensor) × Scope)
  | [], scope => return ([], scope)
  | (label, spec) :: rest, scope => do
    let value ← TraceM.ofOutcome spec.build
    let v ← Var.trace value.shape value.elem
    let (vs, scope) ← createConsts rest (scope.insert label v)
    return ((v, value) :: vs, scope)

def buildArrays (specs : List ArraySpec) : TraceM (List Tensor) :=
  TraceM.ofOutcome (specs.mapM ArraySpec.build)

end Script

open Script

mutual

inductive ParamSpec where
  | value (p : Param)
  | script (s : Script)
  | scripts (list : List Script)

inductive EquationSpec where
  | unary (primitive : String) (x : AtomSpec) (params : List (String × ParamSpec)) (out : String)
  | binary (primitive : String) (lhs rhs : AtomSpec) (out : String)
  | select (which : AtomSpec) (cases : List AtomSpec) (out : String)
  | apply (primitive : String) (inputs : List AtomSpec) (outs : List VarSpec)
      (params : List (String × ParamSpec)) (effectful : Bool)

structure Script where
  inputs : Inputs
  consts : List (String × ArraySpec)
  -- Further constant variables, and further constant values; their numbers have to agree.
  constVars : List VarSpec
  constValues : List ArraySpec
  effects : List String
  equations : List EquationSpec
  outputs : List AtomSpec

end

namespace Script

mutual

def trace : Script → List ArgSpec → TraceM Lambda
  | ⟨inputs, consts, constVars, constValues, effects, equations, outputs⟩, args => do
    let (ins, scope) ← match inputs with
      | .labels names => createInputs names args {}
      | .declared vars => createAll vars {}
    let (extraVars, scope) ← createAll constVars scope
    let (bound, scope) ← createConsts consts scope
    let (eqns, scope) ← traceEquations equations scope
    let outs ← lookupAll scope outputs
    let extraValues ← buildArrays constValues
    Tracer.finish
      { inputs := ins
        constVars := bound.map Prod.fst ++ extraVars
        consts := bound.map Prod.snd ++ extraValues
        effects, equations := eqns } outs

def traceEquations : List EquationSpec → Scope → TraceM (List Equation × Scope)
  | [], scope => return ([], scope)
  | spec :: rest, scope => do
    let (e, scope) ← traceEquation spec scope
    let (es, scope) ← traceEquations rest scope
    return (e :: es, scope)

def traceEquation : EquationSpec → Scope → TraceM (Equation × Scope)
  | .unary primitive x params out, scope => do
    let x ← lookup scope x
    let params ← traceParams params
    let v ← Var.trace x.shape (Lambda.unaryElem primitive x)
    return (⟨primitive, [x], [v], .ofList params, false⟩, scope.insert out v)
  | .binary primitive lhs rhs out, scope => do
    let lhs ← lookup scope lhs
    let rhs ← lookup scope rhs
    let shape ← TraceM.ofOutcome (Shape.broadcast lhs.shape rhs.shape)
    let v ← Var.trace shape (Lambda.binaryElem primitive lhs rhs)
    return (⟨primitive, [lhs, rhs], [v], {}, false⟩, scope.insert out v)
  | .select which cases out, scope => do
    let which ← lookup scope which
    let cases ← lookupAll scope cases
    let lead ← TraceM.ofOutcome (Lambda.leadingCase cases)
    let v ← Var.trace lead.shape lead.elem
    return (⟨"select_n", which :: cases, [v], {}, false⟩, scope.insert out v)
  | .apply primitive inputs outs params effectful, scope => do
    let inputs ← lookupAll scope inputs
    let params ← traceParams params
    let (outs, scope) ← createAll outs scope
    return (⟨primitive, inputs, outs, .ofList params, effectful⟩, scope)

def traceParams : List (String × ParamSpec) → TraceM (List (String × Param))
  | [] => return []
  | (name, .value p) :: rest => do return (name, p) :: (← traceParams rest)
  | (name, .script s) :: rest => do
    let f ← trace s []
    return (name, .lambda f) :: (← traceParams rest)
  | (name, .scripts list) :: rest => do
    let fs ← traceAll list
    return (name, .lambdas fs) :: (← traceParams rest)

def traceAll : List Script → TraceM (List Lambda)
  | [] => return []
  | s :: rest => do
    let f ← trace s []
    return f :: (← traceAll rest)

end

end Script

end TraceFlow
