import TraceFlow.Decimal
import TraceFlow.ElemType

set_option autoImplicit false

namespace TraceFlow

inductive Datum where
  | bool (value : Bool)
  | int (value : Int64)
  | uint (value : UInt64)
  | float (value : Float)

namespace Datum

instance : Inhabited Datum := ⟨.bool false⟩

def toFloat : Datum → Float
  | .bool v => if v then 1 else 0
  | .int v => if v < 0 then -(-v).toUInt64.toFloat else v.toUInt64.toFloat
  | .uint v => v.toFloat
  | .float v => v

-- The signed view: unsigned words are reinterpreted, floats truncate toward zero and saturate.
def toInt64 : Datum → Int64
  | .bool v => if v then 1 else 0
  | .int v => v
  | .uint v => v.toInt64
  | .float v => v.toInt64

def toUInt64 : Datum → UInt64
  | .bool v => if v then 1 else 0
  | .int v => v.toUInt64
  | .uint v => v
  | .float v => v.toUInt64

def toBool : Datum → Bool
  | .bool v => v
  | .int v => v != 0
  | .uint v => v != 0
  | .float v => v != 0

-- The datum in the representation of `t`: integers wrap to its width, floats round to it.
def cast (t : ElemType) (d : Datum) : Datum :=
  match t with
  | .bool => .bool d.toBool
  | .int8 => .int d.toInt64.toInt8.toInt64
  | .int16 => .int d.toInt64.toInt16.toInt64
  | .int32 => .int d.toInt64.toInt32.toInt64
  | .int64 => .int d.toInt64
  | .uint8 => .uint d.toUInt64.toUInt8.toUInt64
  | .uint16 => .uint d.toUInt64.toUInt16.toUInt64
  | .uint32 => .uint d.toUInt64.toUInt32.toUInt64
  | .uint64 => .uint d.toUInt64
  | .float32 => .float d.toFloat.toFloat32.toFloat
  | .float64 => .float d.toFloat

def code : Datum → String
  | .bool v => if v then "True" else "False"
  | .int v => Text.integer v.toInt
  | .uint v => v.toNat.repr
  | .float v =>
    if v.isNaN then "nan"
    else if v.isInf then (if v > 0 then "inf" else "(-inf)")
    else if v < 0 then "(" ++ Decimal.text v ++ ")"
    else Decimal.text v

end Datum

structure Scalar where
  elem : ElemType
  value : Datum

namespace Scalar

def ofDatum (t : ElemType) (d : Datum) : Scalar :=
  ⟨t, d.cast t⟩

def code (s : Scalar) : String :=
  s.value.code

def text (s : Scalar) : String :=
  s.code ++ ":" ++ s.elem.name

end Scalar

end TraceFlow
