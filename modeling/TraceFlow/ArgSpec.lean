import TraceFlow.Tensor

set_option autoImplicit false

namespace TraceFlow

structure ArgSpec where
  -- Empty for scalars.
  shape : List Nat
  elem : ElemType
  -- Absent for scalars.
  strides? : Option (List Nat)
  storage : Storage
  deriving DecidableEq, Repr

namespace ArgSpec

def ofArgument : Argument → Outcome ArgSpec
  | .tensor t => .ok ⟨t.shape, t.elem, some t.strides, t.storage⟩
  | .scalar s => .ok ⟨[], s.elem, none, .cpuHeap⟩
  | .tuple parts =>
    refuse (.undescribable
      s!"can not make an abstract description of a tuple with {parts.length} elements")

def isScalar (a : ArgSpec) : Bool :=
  a.shape.isEmpty && a.strides?.isNone

def text (a : ArgSpec) : String :=
  let strides := match a.strides? with
    | some strides => "/" ++ Text.naturals strides
    | none => ""
  a.elem.name ++ Text.naturals a.shape ++ strides ++ "@" ++ a.storage.tag

end ArgSpec

def describeCall (args : List Argument) : Outcome (List ArgSpec) :=
  args.mapM ArgSpec.ofArgument

end TraceFlow
