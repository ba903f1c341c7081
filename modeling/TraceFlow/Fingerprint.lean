import TraceFlow.ArgSpec
import TraceFlow.Options

set_option autoImplicit false

namespace TraceFlow

namespace Encoding

def word : Nat → Nat → List UInt8
  | 0, _ => []
  | count + 1, n => (n % 256).toUInt8 :: word count (n / 256)

def size (n : Nat) : List UInt8 :=
  word 8 n

def choice (position : Nat) : List UInt8 :=
  word 4 position

def bool (b : Bool) : List UInt8 :=
  [if b then 1 else 0]

def int (i : Int) : List UInt8 :=
  word 8 (i % sizeBound).toNat

def text (s : String) : List UInt8 :=
  size s.utf8ByteSize ++ s.toUTF8.data.toList

def list {α : Type} (encode : α → List UInt8) (values : List α) : List UInt8 :=
  size values.length ++ values.flatMap encode

def option {α : Type} (encode : α → List UInt8) : Option α → List UInt8
  | none => [0]
  | some value => 1 :: encode value

end Encoding

def Storage.position : Storage → Nat
  | .anywhere => 0
  | .cpuHeap => 1
  | .gpuGlobal => 2

def ArgSpec.encode (a : ArgSpec) : List UInt8 :=
  Encoding.list Encoding.size a.shape ++ Encoding.choice a.elem.rank ++
    Encoding.option (Encoding.list Encoding.size) a.strides? ++ Encoding.choice a.storage.position

def OptionValue.encode : OptionValue → List UInt8
  | .bool v => Encoding.bool v
  | .int v => Encoding.int v
  | .str v => Encoding.text v

def Options.encode (o : Options) : List UInt8 :=
  let flags := o.flags.flatMap fun (_, value?) =>
    match value? with
    | none => []
    | some value => 1 :: Encoding.bool value
  let extra := if o.extra.isEmpty then []
    else Encoding.list (fun (name, value) => Encoding.text name ++ OptionValue.encode value)
      o.extra.entries
  flags ++ extra

inductive CallKey where
  | args (specs : List ArgSpec)
  | options (set : Options)
  deriving DecidableEq

namespace CallKey

def encode : CallKey → List UInt8
  | .args specs => Encoding.list ArgSpec.encode specs
  | .options set => set.encode

def hash (bytes : List UInt8) : UInt64 :=
  bytes.foldl (fun hash byte => (hash ^^^ byte.toUInt64) * 0x100000001b3) 0xcbf29ce484222325

def fingerprint (k : CallKey) : UInt64 :=
  hash k.encode

end CallKey

end TraceFlow
