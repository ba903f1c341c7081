import TraceFlow.Lowering.Elementwise

set_option autoImplicit false

namespace TraceFlow.Gather

structure Plan where
  -- Output dimensions that follow the patch.
  offsetDims : List Nat
  -- Slice dimensions of extent 1 that the output leaves out.
  collapsed : List Nat
  -- The source dimension of each start index.
  startMap : List Nat
  sizes : List Nat

namespace Plan

def ofParams (params : Params) : Outcome Plan := do
  let offsetDims ← params.sizes "offset_dims"
  let collapsed ← params.sizes "collapsed_slice_dims"
  let startMap ← params.sizes "start_index_map"
  let sizes ← params.sizes "slice_sizes"
  let mode ← params.str "mode"
  if mode ≠ "promise_in_bounds" then refuse (.unsupported s!"gather mode '{mode}'")
  return { offsetDims, collapsed, startMap, sizes }

def batchDims (p : Plan) (rank : Nat) : List Nat :=
  (List.range rank).filter fun dim => dim ∉ p.offsetDims

def keptDims (p : Plan) : List Nat :=
  (List.range p.sizes.length).filter fun dim => dim ∉ p.collapsed

def check (p : Plan) (source index output : List Nat) : Outcome Unit := do
  if index.getLast? ≠ some p.startMap.length then
    refuse (.invariant (s!"index array {Text.naturals index} does not end in " ++
      s!"{p.startMap.length} start indices"))
  if p.sizes.length ≠ source.length then
    refuse (.invariant (s!"slice_sizes {Text.naturals p.sizes} " ++
      s!"do not match the source rank {source.length}"))
  let batch := (p.batchDims output.length).length
  if batch + 1 ≠ index.length then
    refuse (.invariant s!"expected an index array of rank {batch + 1}, got {index.length}")
  if p.keptDims.length ≠ p.offsetDims.length then
    refuse (.invariant "every non-collapsed slice dimension needs an offset dimension")

-- The axes of the patch and the subscripts of the source, from a dimension on.
def subscripts (p : Plan) : Nat → List (Nat × Nat) → Outcome (List Axis × List String)
  | _, [] => .ok ([], [])
  | dim, (size, extent) :: rest => do
    let start := "__gather_" ++ dim.repr
    let axis := Elementwise.axis dim size
    if dim ∉ p.startMap then
      if size ≠ extent then
        refuse (.unsupported s!"partial slice of size {size} in non-indexed dimension {dim}")
      let (axes, texts) ← subscripts p (dim + 1) rest
      return (axis :: axes, axis.param :: texts)
    else
      let (axes, texts) ← subscripts p (dim + 1) rest
      if dim ∈ p.collapsed then return (axes, start :: texts)
      else return (axis :: axes, (start ++ " + " ++ axis.param) :: texts)

end Plan

def patchParam (output : String) (dim : Nat) : String :=
  "__i" ++ output ++ "_gather" ++ dim.repr

def target (output : String) (batch : List Nat) : List Nat → List Nat → Outcome (List Index)
  | [], _ => .ok []
  | dim :: dims, kept =>
    if dim ∈ batch then do
      return .symbol (patchParam output dim) :: (← target output batch dims kept)
    else match kept with
      | first :: kept => do
        return .symbol ("__i" ++ first.repr) :: (← target output batch dims kept)
      | [] => refuse (.invariant "more offset dimensions than mapped source dimensions")

def reads (source index : String) (shape : List Nat) (params : List String) (startMap : List Nat) :
    Dict Access :=
  let place := params.map Index.symbol
  let starts := startMap.zipIdx.map fun (dim, i) =>
    ("__gather_" ++ dim.repr, Access.element index (place ++ [.constant i]))
  Dict.ofList (("__arr", ⟨source, Access.fullRanges shape⟩) :: starts)

def node (p : Plan) (source index output : String) (sourceShape indexShape outputShape : List Nat) :
    Outcome MapNode := do
  p.check sourceShape indexShape outputShape
  let batch := p.batchDims outputShape.length
  let params := batch.map (patchParam output)
  let (sliceAxes, texts) ← p.subscripts 0 (p.sizes.zip sourceShape)
  let batchAxes := (params.zip indexShape).map fun (param, extent) =>
    (⟨param, 0, signedWord extent⟩ : Axis)
  let written ← target output batch (List.range outputShape.length) p.keptDims
  let axes := batchAxes ++ sliceAxes
  if axes.length ≠ outputShape.length then
    refuse (.invariant (s!"gather map has {axes.length} dimensions " ++
      s!"for an output of rank {outputShape.length}"))
  let (axes, written) := if axes.isEmpty
    then ([Elementwise.scalarAxis], written ++ [.constant 0]) else (axes, written)
  return {
    label := "_gather_map_" ++ output
    axes
    inputs := reads source index sourceShape params p.startMap
    dynamic := {}
    code := "__out = __arr" ++ Text.bracketed texts
    outputs := Dict.ofList [("__out", .element output written)] }

def apply : Apply := fun names outputs e state => do
  match names, e.inputs with
  | [some source, some index], [sourceAtom, indexAtom] =>
    let (output, v) ← firstOutput outputs e
    let plan ← Builder.lift (Plan.ofParams e.params)
    emit state (.map (← Builder.lift
      (node plan source index output sourceAtom.shape indexAtom.shape v.shape)))
    return none
  | _, _ => refuse (.unsupported "gather needs exactly a source and an index array")

def rule : Rule :=
  ⟨"gather", fun _ => apply⟩

end TraceFlow.Gather
