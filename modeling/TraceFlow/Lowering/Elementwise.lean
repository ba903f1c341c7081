import TraceFlow.Lowering.Rule
import TraceFlow.Template

set_option autoImplicit false

namespace TraceFlow

structure Elementwise where
  primitive : String
  connector : Nat → String := fun i => "__in" ++ i.repr
  kernel : List Axis → List (Option String) → Equation → Outcome Template
  reads? : Option (List Axis → List (Option String) → Equation → Outcome (Dict Access)) := none

namespace Elementwise

def scalarAxis : Axis :=
  ⟨"__jace_iterator_SCALAR", 0, 1⟩

def axis (dim extent : Nat) : Axis :=
  ⟨"__i" ++ dim.repr, 0, signedWord extent⟩

def axes (shape : List Nat) : List Axis :=
  if shape.isEmpty then [scalarAxis]
  else shape.zipIdx.map fun (extent, dim) => axis dim extent

def target (shape : List Nat) : List Index :=
  if shape.isEmpty then [.constant 0]
  else (axes shape).map fun axis => .symbol axis.param

def cannotBroadcast {α : Type} (source target : List Nat) : Outcome α :=
  refuse (.unsupported (s!"can not broadcast an input of shape {Text.naturals source} " ++
    s!"to the output shape {Text.naturals target}"))

-- Reads along the axes; an extent of 1 is read at 0 where the output is larger.
def broadcastIndex (source target : List Nat) : List Nat → List Nat → List Axis → Outcome
    (List Index)
  | extent :: extents, outer :: outers, axis :: axes => do
    let index ←
      if extent = outer then pure (.symbol axis.param)
      else if extent = 1 then pure (.constant 0)
      else cannotBroadcast source target
    return index :: (← broadcastIndex source target extents outers axes)
  | _, _, _ => .ok []

def defaultIndex (axes : List Axis) (source target : List Nat) : Outcome (List Index) :=
  if source.isEmpty then .ok [.constant 0]
  else broadcastIndex source target source target axes

def defaultReadsFrom (axes : List Axis) (target : List Nat) (connector : Nat → String) :
    Nat → List (Option String × Atom) → Outcome (Dict Access)
  | _, [] => .ok {}
  | i, (none, _) :: rest => defaultReadsFrom axes target connector (i + 1) rest
  | i, (some name, atom) :: rest => do
    let index ← defaultIndex axes atom.shape target
    let others ← defaultReadsFrom axes target connector (i + 1) rest
    return others.insert (connector i) (.element name index)

def defaultReads (op : Elementwise) (axes : List Axis) (names : List (Option String)) (e : Equation)
    (target : List Nat) : Outcome (Dict Access) := do
  match e.inputs.find? fun atom => !atom.shape.isEmpty && atom.shape.length != target.length with
  | some atom => cannotBroadcast atom.shape target
  | none => defaultReadsFrom axes target op.connector 0 (names.zip e.inputs)

def bindInputs (connector : Nat → String) :
    Nat → List (Option String × Atom) → Template → Outcome Template
  | _, [], template => .ok template
  | i, (name?, atom) :: rest, template => do
    let value ← match name?, atom with
      | some _, _ => pure (connector i)
      | none, .literal s => pure s.code
      | none, .var _ => refuse (.invariant s!"input {i} has no array but is not a literal")
    bindInputs connector (i + 1) rest (template.bind ("in" ++ i.repr) value)

def node (op : Elementwise) (names : List (Option String)) (output : String) (v : Var)
    (e : Equation) : Outcome MapNode := do
  let axes := axes v.shape
  let inputs ← match op.reads? with
    | some reads => reads axes names e
    | none => op.defaultReads axes names e v.shape
  let template ← op.kernel axes names e
  let code ← (← bindInputs op.connector 0 (names.zip e.inputs) template).render
  return {
    label := op.primitive ++ "_" ++ output
    axes, inputs, dynamic := {}
    code := "__out = " ++ code
    outputs := Dict.ofList [("__out", .element output (target v.shape))] }

def apply (op : Elementwise) : Apply := fun names outputs e state => do
  match outputs, e.outputs with
  | [output], v :: _ =>
    emit state (.map (← Builder.lift (op.node names output v e)))
    return none
  | _, _ =>
    refuse (.invariant
      s!"'{op.primitive}' expects exactly one output, got {outputs.length}")

def rule (op : Elementwise) : Rule :=
  ⟨op.primitive, fun _ => op.apply⟩

def ofText (primitive text : String) : Elementwise :=
  { primitive, kernel := fun _ _ _ => .ok (.ofText text) }

end Elementwise

end TraceFlow
