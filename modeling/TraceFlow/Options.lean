import TraceFlow.Dict
import TraceFlow.Text

set_option autoImplicit false

namespace TraceFlow

inductive OptionValue where
  | bool (value : Bool)
  | int (value : Int)
  | str (value : String)
  deriving DecidableEq, Repr

namespace OptionValue

def text : OptionValue → String
  | .bool v => Text.truth v
  | .int v => Text.integer v
  | .str v => Text.quoted v

def taggedText : OptionValue → String
  | .bool v => "Bool(" ++ Text.truth v ++ ")"
  | .int v => "Int(" ++ Text.integer v ++ ")"
  | .str v => "Str(" ++ Text.quoted v ++ ")"

def json : OptionValue → String
  | .bool v => Text.truth v
  | .int v => Text.integer v
  | .str v => Text.jsonString v

end OptionValue

structure Options where
  autoOptimize : Option Bool := none
  simplify : Option Bool := none
  persistentTransients : Option Bool := none
  extra : Dict OptionValue := {}
  deriving DecidableEq

namespace Options

def all (value : Bool) : Options :=
  { autoOptimize := some value, simplify := some value, persistentTransients := some value }

def merged (o later : Options) : Options :=
  { autoOptimize := later.autoOptimize <|> o.autoOptimize
    simplify := later.simplify <|> o.simplify
    persistentTransients := later.persistentTransients <|> o.persistentTransients
    extra := o.extra.union later.extra }

def optimizes (o : Options) : Bool :=
  o.autoOptimize.getD false

def simplifies (o : Options) : Bool :=
  o.simplify.getD false

def keepsTransients (o : Options) : Bool :=
  o.persistentTransients.getD false

def flags (o : Options) : List (String × Option Bool) :=
  [("auto_optimize", o.autoOptimize), ("simplify", o.simplify),
    ("persistent_transients", o.persistentTransients)]

def jsonBlock (indent : String) (members : List String) : String :=
  if members.isEmpty then "\x7b\x7d"
  else "\x7b\n" ++ ",\n".intercalate (members.map fun member => indent ++ "  " ++ member) ++
    "\n" ++ indent ++ "\x7d"

def jsonMember (name value : String) : String :=
  Text.jsonString name ++ ": " ++ value

def json (o : Options) : String :=
  let flags := o.flags.filterMap fun (name, value?) =>
    value?.map fun value => jsonMember name (Text.truth value)
  let extra := if o.extra.isEmpty then []
    else [jsonMember "extra"
      (jsonBlock "  " (o.extra.entries.map fun (name, value) => jsonMember name value.json))]
  jsonBlock "" (flags ++ extra)

def text (o : Options) : String :=
  let flags := o.flags.map fun (name, value?) => name ++ ": " ++
    Text.optional (value?.map Text.truth)
  let extra := o.extra.entries.map fun (name, value) => Text.quoted name ++ ": " ++ value.taggedText
  "CompilerOptions \x7b " ++ ", ".intercalate flags ++ ", extra: \x7b" ++ ", ".intercalate extra ++
    "\x7d \x7d"

end Options

end TraceFlow
