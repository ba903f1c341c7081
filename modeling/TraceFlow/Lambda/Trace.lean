import TraceFlow.ArgSpec
import TraceFlow.Lambda.Basic

set_option autoImplicit false

namespace TraceFlow

abbrev TraceM := ExceptT Failure (StateM Nat)

namespace TraceM

def ofOutcome {α : Type} (o : Outcome α) : TraceM α :=
  fun supply => (o, supply)

def freshId : TraceM Nat :=
  fun supply => (.ok supply, supply + 1)

end TraceM

namespace Var

def trace (shape : List Nat) (elem : ElemType) : TraceM Var := do
  return { id := ← TraceM.freshId, kind := .traced, shape, elem }

def drop (shape : List Nat) (elem : ElemType) : TraceM Var := do
  return { id := ← TraceM.freshId, kind := .dropped, shape, elem }

def named (name : String) (shape : List Nat) (elem : ElemType) : TraceM Var := do
  if Naming.isReserved name then refuse (.naming s!"'{name}' is a forbidden name")
  if !Naming.isIdentifier name then refuse (.naming s!"'{name}' is not a valid name")
  return { id := ← TraceM.freshId, kind := .named name, shape, elem }

end Var

abbrev Traceable := List ArgSpec → TraceM Lambda

structure Tracer where
  inputs : List Var := []
  constVars : List Var := []
  consts : List Tensor := []
  effects : List String := []
  equations : List Equation := []

def Tracer.finish (tracer : Tracer) (outputs : List Atom) : TraceM Lambda :=
  TraceM.ofOutcome (Lambda.close { tracer with outputs })

-- A closure records what it does, starting from one input per argument.
def Traceable.blanket (record : List Var → Tracer → TraceM (List Atom × Tracer)) : Traceable :=
    fun specs => do
  let inputs ← specs.mapM fun spec => Var.trace spec.shape spec.elem
  let (outputs, tracer) ← record inputs { inputs }
  tracer.finish outputs

namespace Shape

-- The shape two operands are broadcast to: extents agree or one of them is 1.
def broadcast? : List Nat → List Nat → Option (List Nat)
  | [], [] => some []
  | l :: ls, r :: rs =>
    if l = r then (broadcast? ls rs).map (l :: ·)
    else if l = 1 then (broadcast? ls rs).map (r :: ·)
    else if r = 1 then (broadcast? ls rs).map (l :: ·)
    else none
  | _, _ => none

def broadcast (lhs rhs : List Nat) : Outcome (List Nat) :=
  if lhs.isEmpty then .ok rhs
  else if rhs.isEmpty then .ok lhs
  else match broadcast? lhs rhs with
    | some shape => .ok shape
    | none =>
      refuse (.unsupported s!"can not broadcast {Text.naturals lhs} against {Text.naturals rhs}")

end Shape

namespace Lambda

def comparisons : List String :=
  ["eq", "ne", "ge", "gt", "le", "lt"]

def unaryElem (primitive : String) (x : Atom) : ElemType :=
  if primitive = "is_finite" then .bool else x.elem

-- The element type of a function of two operands: a literal takes on the type of the other.
def binaryElem (primitive : String) (lhs rhs : Atom) : ElemType :=
  if comparisons.contains primitive then .bool
  else if lhs.isLiteral then rhs.elem
  else lhs.elem

def leadingCase (cases : List Atom) : Outcome Atom :=
  match cases.find? (!·.isLiteral) |>.or cases.head? with
  | some atom => .ok atom
  | none => refuse (.invariant "select_n needs at least one case")

end Lambda

end TraceFlow
