import TraceFlow.Lowering.Elementwise

set_option autoImplicit false

namespace TraceFlow.Movement

open Elementwise (axis)

def itself : String := "\x7bin0\x7d"

def readFirst (name : String) (index : List Index) : Dict Access :=
  Dict.ofList [("__in0", .element name index)]

def orScalar (index : List Index) : List Index :=
  if index.isEmpty then [.constant 0] else index

def firstShape (e : Equation) : Outcome (List Nat) :=
  match e.inputs with
  | atom :: _ => .ok atom.shape
  | [] => .error (.fault .outOfRange)

def copy : Elementwise :=
  .ofText "copy" itself

def devicePut : Elementwise :=
  { primitive := "device_put"
    kernel := fun _ _ e => do
      if !(Params.isNone e.params "device" && Params.isNone e.params "src") then
        let shown name := Text.optional ((e.params.get? name).map fun p => Text.quoted p.text)
        let source := shown "src"
        let target := shown "device"
        refuse
          (.unsupported s!"device_put can only copy on the host, not from {source} to {target}")
      return .ofText itself }

def convert : Elementwise :=
  { primitive := "convert_element_type"
    kernel := fun _ names e => do
      match names, e.inputs, e.outputs with
      | some _ :: _, input :: _, output :: _ =>
        let value := if input.elem = .bool && output.elem.isInteger
          then "(1 if (\x7bin0\x7d) else 0)" else itself
        return (Template.ofText ("\x7bcast\x7d(" ++ value ++ ")")).bind "cast" output.elem.name
      | _, _, _ =>
        refuse (.unsupported "convert_element_type is not supported for literals") }

def iota : Elementwise :=
  { primitive := "iota"
    kernel := fun axes _ e => do
      let dim ← Params.size e.params "dimension"
      match axes[dim]? with
      | some axis => return (Template.ofText "\x7bindex\x7d").bind "index" axis.param
      | none => refuse (.invariant s!"iota dimension {dim} exceeds the output rank")
    reads? := some fun _ _ _ => .ok {} }

def broadcastIndex (axes : List Axis) : List (Nat × Nat) → Outcome (List Index)
  | [] => .ok []
  | (dim, extent) :: rest => do
    match axes[dim]? with
    | none => refuse (.invariant s!"broadcast dimension {dim} is out of range")
    | some axis =>
      let fixed ← if extent = 1 then do pure ((← axis.extent) != 1) else pure false
      let index := if fixed then Index.constant 0 else .symbol axis.param
      return index :: (← broadcastIndex axes rest)

def broadcast : Elementwise :=
  { primitive := "broadcast_in_dim"
    kernel := fun _ _ _ => .ok (.ofText itself)
    reads? := some fun axes names e => do
      match names with
      | some name :: _ =>
        let dims ← Params.sizes e.params "broadcast_dimensions"
        let shape ← firstShape e
        if dims.length ≠ shape.length then
          refuse (.invariant (s!"broadcast_dimensions {Text.naturals dims} " ++
            s!"do not match the operand rank {shape.length}"))
        return readFirst name (orScalar (← broadcastIndex axes (dims.zip shape)))
      | _ => return {} }

def shiftedIndex : List Axis → List Int → Outcome (List Index)
  | axis :: axes, start :: starts => do
    let index ← (Index.symbol axis.param).plus start
    return index :: (← shiftedIndex axes starts)
  | _, _ => .ok []

def slice : Elementwise :=
  { primitive := "slice"
    kernel := fun _ _ _ => .ok (.ofText itself)
    reads? := some fun axes names e => do
      if !Params.isNone e.params "strides" then
        refuse (.unsupported "slice with non-unit strides")
      match names with
      | some name :: _ =>
        let starts ← Params.ints e.params "start_indices"
        let shape ← firstShape e
        if starts.length ≠ shape.length then
          refuse (.invariant (s!"start_indices {Text.integers starts} " ++
            s!"do not match the operand rank {shape.length}"))
        if starts.isEmpty then return readFirst name [.constant 0]
        return readFirst name (← shiftedIndex axes starts)
      | _ => refuse (.unsupported "slice of a literal") }

def squeezedIndex (removed : List Nat) : List Axis → Nat → List Nat → Outcome (List Index)
  | _, _, [] => .ok []
  | axes, dim, _ :: rest =>
    if dim ∈ removed then do
      return .constant 0 :: (← squeezedIndex removed axes (dim + 1) rest)
    else match axes with
      | axis :: axes => do
        return .symbol axis.param :: (← squeezedIndex removed axes (dim + 1) rest)
      | [] => refuse (.invariant s!"squeeze: no output dimension left for input {dim}")

def squeeze : Elementwise :=
  { primitive := "squeeze"
    kernel := fun _ _ _ => .ok (.ofText itself)
    reads? := some fun axes names e => do
      match names with
      | some name :: _ =>
        let removed ← Params.sizes e.params "dimensions"
        let shape ← firstShape e
        return readFirst name (orScalar (← squeezedIndex removed axes 0 shape))
      | _ => refuse (.unsupported "squeeze of a literal") }

def caseChain : Nat → String → String
  | 0, text => text
  | case + 1, text =>
    caseChain case ("(\x7bin" ++ (case + 1).repr ++ "\x7d) if (\x7bin0\x7d) == " ++ case.repr ++
      " else (" ++ text ++ ")")

-- Picks a case by the first input; a selector out of range picks the last.
def select : Elementwise :=
  { primitive := "select_n"
    connector := fun
      | 0 => "__cond"
      | i + 1 => "__in" ++ i.repr
    kernel := fun _ names _ =>
      match names.length - 1 with
      | 0 => refuse (.invariant "select_n without any case")
      | 2 => .ok (.ofText "(\x7bin2\x7d) if (\x7bin0\x7d) else (\x7bin1\x7d)")
      | case + 1 => .ok (.ofText (caseChain case ("(\x7bin" ++ (case + 1).repr ++ "\x7d)"))) }

def reshape : Apply := fun names outputs e state => do
  if !Params.isNone e.params "dimensions" then
    refuse (.unsupported "reshape with 'dimensions' set")
  match names with
  | some source :: _ =>
    let sourceArray ← Builder.array source
    let (output, _) ← firstOutput outputs e
    let outputArray ← Builder.array output
    emit state (.copy (.full source sourceArray) (.full output outputArray))
    return none
  | _ => refuse (.unsupported "reshape of a literal")

def concatenated (output name : String) (dim : Nat) (offset : Int) (shape : List Nat) :
    Outcome MapNode := do
  let axes := shape.zipIdx.map fun (extent, d) => (⟨"__dim" ++ d.repr, 0, signedWord extent⟩ : Axis)
  let index := axes.map fun axis => Index.symbol axis.param
  match index[dim]? with
  | none => stop .outOfRange
  | some along =>
    let target := index.set dim (← along.plus offset)
    return {
      label := "_concatenate_" ++ output ++ "_" ++ name
      axes
      inputs := Dict.ofList [("__in", .element name index)]
      dynamic := {}
      code := "__out = __in"
      outputs := Dict.ofList [("__out", .element output target)] }

def concatenateParts (output : String) (dim state : Nat) : Int → List (String × Atom) → LowerM Unit
  | _, [] => return ()
  | offset, (name, atom) :: rest => do
    emit state (.map (← Builder.lift (concatenated output name dim offset atom.shape)))
    let next ← Builder.lift (checkIndex (offset + signedWord (atom.shape.getD dim 0)))
    concatenateParts output dim state next rest

def concatenate : Apply := fun names outputs e state => do
  if names.any Option.isNone then refuse (.unsupported "concatenate with literal inputs")
  let dim ← Builder.lift (Params.size e.params "dimension")
  let (output, v) ← firstOutput outputs e
  if dim ≥ v.shape.length then
    refuse (.invariant s!"concatenation dimension {dim} exceeds the output rank")
  concatenateParts output dim state 0 ((names.filterMap id).zip e.inputs)
  return none

def windowIndex (output : String) (axes : List Axis) :
    Nat → List (Option String × Atom) → Outcome (List Index × Dict Access)
  | _, [] => .ok ([], {})
  | dim, (start?, atom) :: rest => do
    match axes[dim]? with
    | none => stop .outOfRange
    | some axis =>
      let base := Index.symbol axis.param
      match start?, atom with
      | some start, _ =>
        let symbol := "__jace_dynamic_map_range_" ++ output ++ "_" ++ start
        let (index, fetched) ← windowIndex output axes (dim + 1) rest
        return (base.plusSymbol symbol :: index,
          fetched.insert symbol (.element start [.constant 0]))
      | none, .literal s =>
        let part ← base.plus s.value.toInt64.toInt
        let (index, fetched) ← windowIndex output axes (dim + 1) rest
        return (part :: index, fetched)
      | none, .var _ =>
        refuse (.invariant s!"start index {dim} is neither an array nor a literal")

def dynamicSlice : Apply := fun names outputs e state => do
  match names, e.inputs with
  | some source :: starts, operand :: atoms =>
    let rank := operand.shape.length
    if starts.length ≠ rank then
      refuse (.invariant (s!"dynamic_slice of a rank {rank} operand needs {rank} start indices, " ++
        s!"got {starts.length}"))
    let (output, v) ← firstOutput outputs e
    let axes := Elementwise.axes v.shape
    let (index, dynamic) ← Builder.lift (windowIndex output axes 0 (starts.zip atoms))
    emit state (.map {
      label := "dynamic_slice_" ++ output
      axes
      inputs := Dict.ofList [("__in", .element source (orScalar index))]
      dynamic
      code := "__out = __in"
      outputs := Dict.ofList [("__out", .element output (Elementwise.target v.shape))] })
    return none
  | _, _ => refuse (.unsupported "dynamic_slice of a literal")

def rules : List Rule :=
  [broadcast, convert, copy, devicePut, iota, select, slice, squeeze].map Elementwise.rule ++
    [⟨"concatenate", fun _ => concatenate⟩, ⟨"dynamic_slice", fun _ => dynamicSlice⟩,
      ⟨"reshape", fun _ => reshape⟩]

end TraceFlow.Movement
