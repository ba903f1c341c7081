import TraceFlow.Text

set_option autoImplicit false

namespace TraceFlow

inductive Fault where
  | overflow
  | outOfRange
  deriving DecidableEq, Repr

inductive RunError where
  | unparsable (code reason : String)
  | foreignTarget (label target : String)
  | missingArgument (graph name : String)
  | argumentMismatch (name found expected : String)
  | unsetSymbol (name : String)
  | unboundSymbol (access : String)
  | notSingleElement (access : String)
  | unknownArray (name : String)
  | outOfBounds (index : List Int) (name : String) (shape : List Nat)
  | copyMismatch (source target : String) (read written : Nat)
  | unboundName (name : String)
  | notArrayConnector (name : String)
  | subscriptCount (name : String) (given expected : Nat)
  | divisionByZero
  | bitwiseOnFloats (op : String)
  | invertedFloat
  | wrongArity (name : String) (expected given : Nat)
  | unknownFunction (name : String)
  | noTermination (graph : String) (limit : Nat)
  | unassignable (source target : List Nat)
  | calleeWithoutArgument (label name : String)
  | calleeLostOutput (label name : String)
  | reported (message : String)
  deriving DecidableEq, Repr

namespace RunError

def message : RunError → String
  | unparsable code reason => s!"can not parse tasklet `{code}`: {reason}"
  | foreignTarget label target =>
    s!"tasklet '{label}' assigns '{target}' which is not an output connector"
  | missingArgument graph name => s!"'{graph}' was called without argument '{name}'"
  | argumentMismatch name found expected => s!"argument '{name}' is {found}, expected {expected}"
  | unsetSymbol name => s!"symbol '{name}' is unset"
  | unboundSymbol access => s!"unbound symbol in memlet {access}"
  | notSingleElement access => s!"memlet {access} is not a single element"
  | unknownArray name => s!"unknown array '{name}'"
  | outOfBounds index name shape =>
    s!"index {Text.integers index} is out of bounds for '{name}' of shape {Text.naturals shape}"
  | copyMismatch source target read written =>
    s!"copy {source} -> {target} moves {read} elements into {written}"
  | unboundName name => s!"unbound name '{name}'"
  | notArrayConnector name => s!"'{name}' is not an array connector"
  | subscriptCount name given expected =>
    s!"'{name}' indexed with {given} subscripts, expected {expected}"
  | divisionByZero => "integer division by zero"
  | bitwiseOnFloats op => s!"bitwise {op} on floating point operands"
  | invertedFloat => "bitwise inversion of a float"
  | wrongArity name expected given => s!"'{name}' takes {expected} arguments, got {given}"
  | unknownFunction name => s!"unknown tasklet function '{name}'"
  | noTermination graph limit => s!"'{graph}' did not terminate after {limit} state transitions"
  | unassignable source target =>
    s!"can not assign {Text.naturals source} to {Text.naturals target}"
  | calleeWithoutArgument label name => s!"nested SDFG '{label}' has no argument '{name}'"
  | calleeLostOutput label name => s!"nested SDFG '{label}' lost output '{name}'"
  | reported message => message

end RunError

inductive Error where
  | unsupported (reason : String)
  | naming (reason : String)
  | invariant (reason : String)
  | validation (reason : String)
  | undescribable (reason : String)
  | argument (reason : String)
  | unimplemented (operation reason : String)
  | execution (cause : RunError)
  | unknownBackend (name : String) (available : List String)
  | inEquation (equation : String) (source : Error)
  deriving DecidableEq, Repr

namespace Error

def message : Error → String
  | unsupported reason => "not supported: " ++ reason
  | naming reason => "naming error: " ++ reason
  | invariant reason => "invariant violated: " ++ reason
  | validation reason => "validation failed: " ++ reason
  | undescribable reason => "can not describe argument: " ++ reason
  | argument reason => "invalid argument: " ++ reason
  | unimplemented operation reason => s!"{operation} is not implemented: {reason}"
  | execution cause => "backend execution failure: " ++ cause.message
  | unknownBackend name available =>
    s!"no backend named '{name}' is registered, available: {Text.quotedList available}"
  | inEquation equation source => s!"while translating `{equation}`: {source.message}"

def root : Error → Error
  | inEquation _ source => source.root
  | other => other

def kind : Error → String
  | unsupported _ => "Unsupported"
  | naming _ => "Naming"
  | invariant _ => "Invariant"
  | validation _ => "Validation"
  | undescribable _ => "CacheKey"
  | argument _ => "Argument"
  | unimplemented _ _ => "Backend.Unimplemented"
  | execution _ => "Backend.Execution"
  | unknownBackend _ _ => "Backend.UnknownBackend"
  | inEquation _ source => source.kind

def isUnsupported (e : Error) : Bool :=
  e.root matches .unsupported _

def isNaming (e : Error) : Bool :=
  e.root matches .naming _

def isInvariant (e : Error) : Bool :=
  e.root matches .invariant _

def isValidation (e : Error) : Bool :=
  e.root matches .validation _

theorem root_inEquation (equation : String) (source : Error) :
    (inEquation equation source).root = source.root := rfl

end Error

inductive Failure where
  | fault (cause : Fault)
  | error (cause : Error)
  deriving DecidableEq, Repr

def Failure.inEquation (equation : String) : Failure → Failure
  | .fault cause => .fault cause
  | .error cause => .error (.inEquation equation cause)

abbrev Outcome := Except Failure

variable {m : Type → Type} {α : Type}

def refuse [MonadExceptOf Failure m] (cause : Error) : m α :=
  throw (.error cause)

def stop [MonadExceptOf Failure m] (cause : Fault) : m α :=
  throw (.fault cause)

def halt (cause : RunError) : Outcome α :=
  .error (.error (.execution cause))

end TraceFlow
