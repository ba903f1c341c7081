import TraceFlow.Executable
import TraceFlow.Graph.Render
import TraceFlow.Lambda.Trace
import TraceFlow.Lowering.Basic
import TraceFlow.Lowering.Boundary
import TraceFlow.StageCache

set_option autoImplicit false

namespace TraceFlow

structure Wrapped where
  id : Nat
  trace : Traceable
  name? : Option String
  book : RuleBook
  backend : String

structure Lowered where
  id : Nat
  routine : Routine
  backend : Backend

structure Compiled where
  id : Nat
  executable : Executable
  options : Options

def stageText (id : Nat) : String :=
  "stage#" ++ id.repr

def stageTag (id : Nat) : String :=
  "StageId(" ++ id.repr ++ ")"

namespace Wrapped

def text (w : Wrapped) : String :=
  "JaceWrapped \x7b id: " ++ stageTag w.id ++ ", name: " ++
    Text.optional (w.name?.map Text.quoted) ++
    ", backend: " ++ Text.quoted w.backend ++ ", translators: " ++ w.book.size.repr ++ " \x7d"

end Wrapped

namespace Lowered

def text (l : Lowered) : String :=
  "JaceLowered \x7b id: " ++ stageTag l.id ++ ", sdfg: " ++ Text.quoted l.routine.graph.name ++
    ", backend: " ++ Text.quoted l.backend.name ++ " \x7d"

def inDialect (l : Lowered) (dialect? : Option String) : Outcome Routine :=
  match dialect? with
  | none => .ok l.routine
  | some dialect =>
    if dialect.toLower = "sdfg" then .ok l.routine
    else refuse (.unsupported s!"unknown dialect '{dialect}'")

end Lowered

namespace Compiled

def text (c : Compiled) : String :=
  "JaceCompiled \x7b compiled: " ++ c.executable.text ++ ", options: " ++ c.options.text ++ " \x7d"

def listing (c : Compiled) : Outcome String := do
  return "compiler options: " ++ c.options.json ++ "\n" ++ (← c.executable.graph.render)

end Compiled

structure Session where
  counter : Nat
  unnamed : Nat
  stages : Nat
  programs : Nat
  traced : List Nat
  book : RuleBook
  options : Options
  -- Options that were in force before each temporary change, the newest first.
  saved : List Options
  backends : Dict Backend
  lowerings : StageCache Lowered
  compilations : StageCache Compiled

abbrev SessionM := ExceptT Failure (StateM Session)

namespace Session

def new (capacity : Nat) (backends : List Backend) : Session :=
  { counter := 0, unnamed := 0, stages := 0, programs := 0, traced := []
    book := .builtin
    options := .all true
    saved := []
    backends := Dict.ofList (backends.map fun backend => (backend.name, backend))
    lowerings := .lowering "lowering" capacity
    compilations := .compilation "compilation" capacity }

def defaultBackend : String := "cpu"

def lift {α : Type} (o : Outcome α) : SessionM α :=
  fun s => (o, s)

def loweringSlot : StageCache.Slot Session Lowered :=
  ⟨Session.lowerings, fun cache s => { s with lowerings := cache }⟩

def compilationSlot : StageCache.Slot Session Compiled :=
  ⟨Session.compilations, fun cache s => { s with compilations := cache }⟩

def events (s : Session) : Events :=
  s.lowerings.events.plus s.compilations.events

def clearCaches (s : Session) : Session :=
  { s with lowerings := s.lowerings.clear, compilations := s.compilations.clear }

def register (rule : Rule) (overwrite : Bool) : SessionM Unit := do
  let s ← get
  let book ← lift (s.book.register rule overwrite)
  set { s with book }

def setBook (book : RuleBook) : SessionM RuleBook := do
  let s ← get
  set { s with book }
  return s.book

def setOptions (options : Options) : SessionM Options := do
  let s ← get
  set { s with options }
  return s.options

def updateOptions (options : Options) : SessionM Options := do
  setOptions ((← get).options.merged options)

def pushOptions (options : Options) : SessionM Unit := do
  let previous ← updateOptions options
  modify fun s => { s with saved := previous :: s.saved }

def popOptions : SessionM Unit := do
  let s ← get
  match s.saved with
  | [] => return
  | previous :: saved => set { s with options := previous, saved }

def freshStage : SessionM Nat := do
  let s ← get
  set { s with stages := s.stages + 1 }
  return s.stages

def freshProgram : SessionM Nat := do
  let s ← get
  set { s with programs := s.programs + 1 }
  return s.programs

def backend (name : String) : SessionM Backend := do
  let s ← get
  match s.backends.get? name with
  | some backend => return backend
  | none => refuse (.unknownBackend name s.backends.keys)

def tracing {α : Type} (step : TraceM α) : SessionM α :=
  fun s =>
    let (outcome, counter) := step s.counter
    (outcome, { s with counter })

def building {α : Type} (step : LowerM α) : SessionM α :=
  fun s =>
    let (outcome, b) := step (.new s.unnamed)
    (outcome, { s with unnamed := b.unnamed })

structure WrapOptions where
  book? : Option RuleBook := none
  backend? : Option String := none
  name? : Option String := none
  unknown : List String := []

def WrapOptions.set (o : WrapOptions) (key : String) (value : OptionValue) : WrapOptions :=
  match value with
  | .str text =>
    if key = "backend" then { o with backend? := some text }
    else if key = "name" then { o with name? := some text }
    else { o with unknown := o.unknown ++ [key ++ "=" ++ value.text] }
  | _ => { o with unknown := o.unknown ++ [key ++ "=" ++ value.text] }

-- Wraps a function. The rules are those in force now, whatever is registered later.
def wrap (trace : Traceable) (options : WrapOptions) : SessionM Wrapped := do
  if !options.unknown.isEmpty then
    let unknown := ", ".intercalate options.unknown
    refuse (.unsupported s!"jit options {unknown}")
  let book := options.book?.getD (← get).book
  return { id := ← freshStage, trace, name? := options.name?, book,
           backend := options.backend?.getD defaultBackend }

-- Traces, lowers and finishes a function, past the cache.
def lowerAnew (w : Wrapped) (specs : List ArgSpec) : SessionM Lowered := do
  modify fun s => { s with traced := s.traced ++ [w.id] }
  let f ← tracing (w.trace specs)
  let draft ← building (Lowering.lower w.book f (w.name?.map Naming.sanitized))
  let routine ← lift (draft.toRoutine specs true)
  let backend ← backend w.backend
  return { id := ← freshStage, routine, backend }

def lower (w : Wrapped) (args : List Argument) : SessionM Lowered := do
  let specs ← lift (describeCall args)
  loweringSlot.getOrMake ⟨w.id, .args specs⟩ (lowerAnew w specs)

def compileAnew (l : Lowered) (options : Options) : SessionM Compiled := do
  let routine ← lift (l.routine.optimized l.backend options)
  let executable ← lift (Executable.ofRoutine routine l.backend)
  return { id := ← freshProgram, executable, options }

def resolveOptions (s : Session) (options? : Option Options) : Options :=
  match options? with
  | some options => s.options.merged options
  | none => s.options

def compile (l : Lowered) (options? : Option Options) : SessionM Compiled := do
  let options := (← get).resolveOptions options?
  compilationSlot.getOrMake ⟨l.id, .options options⟩ (compileAnew l options)

def call (w : Wrapped) (args : List Argument) : SessionM (List Tensor) := do
  let l ← lower w args
  let c ← compile l none
  lift (c.executable.call args)

end Session

-- What a function gives on arguments when it is lowered and compiled on its own.
def Lambda.evaluate (f : Lambda) (specs : List ArgSpec) (options : Options) (args : List Argument) :
    Outcome (List Tensor) := do
  let draft ← (Lowering.lower .builtin f none (.new 0)).1
  let routine ← draft.toRoutine specs true
  let executable ← Executable.ofRoutine (← routine.optimized .cpu options) .cpu
  executable.call args

end TraceFlow
