import TraceFlow.Graph.Basic

set_option autoImplicit false

namespace TraceFlow

abbrev Memory := Dict Tensor

abbrev Symbols := Dict Int

namespace Memory

def array (memory : Memory) (name : String) : Outcome Tensor :=
  match memory.get? name with
  | some t => .ok t
  | none => halt (.unknownArray name)

end Memory

def Tensor.locate (t : Tensor) (name : String) (index : List Int) : Outcome Nat := do
  let found ← if index.all (0 ≤ ·) then t.offset? (index.map Int.toNat) else .ok none
  match found with
  | some offset => return offset
  | none => halt (.outOfBounds index name t.shape)

namespace Access

def elementIndex (access : Access) (lookup : String → Option Int) : Outcome (List Int) :=
  access.subset.mapM fun
    | .at index => do
      match ← index.eval lookup with
      | some i => return i
      | none => halt (.unboundSymbol (← access.text))
    | .range _ _ => do halt (.notSingleElement (← access.text))

def readElement (access : Access) (memory : Memory) (lookup : String → Option Int) :
    Outcome Datum := do
  let index ← access.elementIndex lookup
  let t ← memory.array access.array
  t.get (← t.locate access.array index)

def bounds (access : Access) (lookup : String → Option Int) : Outcome (List (Int × Int)) :=
  access.subset.mapM fun
    | .at index => do
      match ← index.eval lookup with
      | some i => return (i, ← checkIndex (i + 1))
      | none => halt (.unboundSymbol (← access.text))
    | .range low high => .ok (low, high)

def points (access : Access) (lookup : String → Option Int) : Outcome (List (List Int)) := do
  let bounds ← access.bounds lookup
  checkCapacity (← access.volume) 24
  return Box.points bounds

end Access

end TraceFlow
