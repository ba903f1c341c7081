import TraceFlow.Kernel.Eval
import TraceFlow.Machine.Memory

set_option autoImplicit false

namespace TraceFlow

abbrev Effect := Memory → Symbols → Outcome Memory

namespace Effect

def skip : Effect := fun memory _ => .ok memory

def andThen (first second : Effect) : Effect := fun memory symbols => do
  second (← first memory symbols) symbols

def writeAll (t : Tensor) (name : String) : List (List Int × Datum) → Outcome Tensor
  | [] => .ok t
  | (index, d) :: rest => do
    let offset ← t.locate name index
    writeAll (← t.set offset d) name rest

-- Moves the elements of one subset into another, both in row-major order.
def copy (source target : Access) : Effect := fun memory symbols => do
  let reads ← source.points symbols.get?
  let writes ← target.points symbols.get?
  if reads.length ≠ writes.length then
    halt (.copyMismatch (← source.text) (← target.text) reads.length writes.length)
  let t ← memory.array source.array
  let values ← reads.mapM fun index => do t.get (← t.locate source.array index)
  let t ← memory.array target.array
  return memory.insert target.array (← writeAll t target.array (writes.zip values))

-- An array connector: the array it stands for and where its ranges begin.
structure Window where
  array : String
  origin : List Int

def window? (access : Access) : Option Window :=
  let starts := access.subset.mapM fun
    | .range low _ => some low
    | .at _ => none
  match starts with
  | some (low :: rest) => some ⟨access.array, low :: rest⟩
  | _ => none

structure MapBody where
  node : MapNode
  value : Kernel.Expr
  output : Access

namespace MapBody

def windows (body : MapBody) : List (String × Window) :=
  body.node.inputs.entries.filterMap fun (connector, access) =>
    (window? access).map fun w => (connector, w)

def elements (body : MapBody) : List (String × Access) :=
  body.node.inputs.entries.filter fun (_, access) => (window? access).isNone

def windowElement (body : MapBody) (memory : Memory) (name : String) (index : List Int) :
    Outcome Datum := do
  match Dict.lookup name body.windows with
  | none => halt (.notArrayConnector name)
  | some w =>
    if index.length ≠ w.origin.length then
      halt (.subscriptCount name index.length w.origin.length)
    let absolute ← (index.zip w.origin).mapM fun (i, low) => checkIndex (i + low)
    let t ← memory.array w.array
    t.get (← t.locate w.array absolute)

def scope (body : MapBody) (memory : Memory) (scalars : Dict Datum) (symbols : Symbols) :
    Kernel.Scope where
  value? name := (scalars.get? name).or ((symbols.get? name).map fun i => .int (Int64.ofInt i))
  element := body.windowElement memory

def dynamicSymbols (memory : Memory) : List (String × Access) → Symbols → Outcome Symbols
  | [], symbols => .ok symbols
  | (symbol, access) :: rest, symbols => do
    let value ← access.readElement memory symbols.get?
    dynamicSymbols memory rest (symbols.insert symbol value.toInt64.toInt)

def readScalars (memory : Memory) (symbols : Symbols) :
    List (String × Access) → Dict Datum → Outcome (Dict Datum)
  | [], scalars => .ok scalars
  | (connector, access) :: rest, scalars => do
    let value ← access.readElement memory symbols.get?
    readScalars memory symbols rest (scalars.insert connector value)

def bindPoint (axes : List Axis) (point : List Int) (symbols : Symbols) : Symbols :=
  (axes.zip point).foldl (fun symbols (axis, i) => symbols.insert axis.param i) symbols

def runPoint (body : MapBody) (symbols : Symbols) (memory : Memory) (point : List Int) :
    Outcome Memory := do
  let symbols := bindPoint body.node.axes point symbols
  let scalars ← readScalars memory symbols body.elements {}
  let value ← body.value.eval (body.scope memory scalars symbols)
  let index ← body.output.elementIndex symbols.get?
  let t ← memory.array body.output.array
  let offset ← t.locate body.output.array index
  return memory.insert body.output.array (← t.set offset value)

def runPoints (body : MapBody) (symbols : Symbols) : Memory → List (List Int) → Outcome Memory
  | memory, [] => .ok memory
  | memory, point :: rest => do runPoints body symbols (← body.runPoint symbols memory point) rest

def points (body : MapBody) : Outcome (List (List Int)) :=
  Access.points ⟨"", body.node.axes.map fun axis => .range axis.low axis.high⟩ fun _ => none

end MapBody

def map (body : MapBody) : Effect := fun memory symbols => do
  let symbols ← MapBody.dynamicSymbols memory body.node.dynamic.entries symbols
  body.runPoints symbols memory (← body.points)

def assignLogical (target source : Tensor) : Outcome Tensor := do
  if (← target.count) ≠ (← source.count) then halt (.unassignable source.shape target.shape)
  let offsets ← target.offsets
  target.store (offsets.zip (← source.values))

def calleeArgs (site : CallSite) (arrays : Dict Descriptor) (memory : Memory) :
    List (String × String) → Memory → Outcome Memory
  | [], args => .ok args
  | (inner, outer) :: rest, args =>
    if args.contains inner then calleeArgs site arrays memory rest args
    else match arrays.get? inner with
      | none => halt (.calleeWithoutArgument site.label inner)
      | some d => do
        let blank ← Tensor.ofDescriptor d
        let value ← assignLogical blank (← memory.array outer)
        calleeArgs site arrays memory rest (args.insert inner value)

def calleeSymbols (symbols : Symbols) : List (String × String) → Symbols → Outcome Symbols
  | [], bound => .ok bound
  | (inner, outer) :: rest, bound =>
    match symbols.get? outer with
    | none => halt (.unsetSymbol outer)
    | some value => calleeSymbols symbols rest (bound.insert inner value)

def takeOutputs (site : CallSite) (args : Memory) : List (String × String) → Memory → Outcome Memory
  | [], memory => .ok memory
  | (inner, outer) :: rest, memory =>
    match args.get? inner with
    | none => halt (.calleeLostOutput site.label inner)
    | some result => do
      let value ← assignLogical (← memory.array outer) result
      takeOutputs site args rest (memory.insert outer value)

def call (site : CallSite) (arrays : Dict Descriptor) (run : Effect) : Effect :=
    fun memory symbols => do
  let args ← calleeArgs site arrays memory (site.inputs.entries ++ site.outputs.entries) {}
  let bound ← calleeSymbols symbols site.symbols.entries {}
  let args ← run args bound
  takeOutputs site args site.outputs.entries memory

end Effect

end TraceFlow
