set_option autoImplicit false

namespace TraceFlow

inductive ElemType where
  | bool | int8 | int16 | int32 | int64 | uint8 | uint16 | uint32 | uint64 | float32 | float64
  deriving DecidableEq, Repr, Inhabited

namespace ElemType

def all : List ElemType :=
  [bool, int8, int16, int32, int64, uint8, uint16, uint32, uint64, float32, float64]

def name : ElemType → String
  | bool => "bool_"
  | int8 => "int8"
  | int16 => "int16"
  | int32 => "int32"
  | int64 => "int64"
  | uint8 => "uint8"
  | uint16 => "uint16"
  | uint32 => "uint32"
  | uint64 => "uint64"
  | float32 => "float32"
  | float64 => "float64"

def ofName? (text : String) : Option ElemType :=
  all.find? fun t => t.name = text

def tag : ElemType → String
  | bool => "Bool"
  | int8 => "I8"
  | int16 => "I16"
  | int32 => "I32"
  | int64 => "I64"
  | uint8 => "U8"
  | uint16 => "U16"
  | uint32 => "U32"
  | uint64 => "U64"
  | float32 => "F32"
  | float64 => "F64"

def width : ElemType → Nat
  | bool | int8 | uint8 => 1
  | int16 | uint16 => 2
  | int32 | uint32 | float32 => 4
  | int64 | uint64 | float64 => 8

def rank : ElemType → Nat
  | bool => 0
  | int8 => 1
  | int16 => 2
  | int32 => 3
  | int64 => 4
  | uint8 => 5
  | uint16 => 6
  | uint32 => 7
  | uint64 => 8
  | float32 => 9
  | float64 => 10

def isSigned : ElemType → Bool
  | int8 | int16 | int32 | int64 => true
  | _ => false

def isUnsigned : ElemType → Bool
  | uint8 | uint16 | uint32 | uint64 => true
  | _ => false

def isInteger (t : ElemType) : Bool :=
  t.isSigned || t.isUnsigned

def isFloat : ElemType → Bool
  | float32 | float64 => true
  | _ => false

theorem all_complete (t : ElemType) : t ∈ all := by
  cases t <;> decide

theorem width_pos (t : ElemType) : 0 < t.width := by
  cases t <;> decide

theorem ofName?_name (t : ElemType) : ofName? t.name = some t := by
  cases t <;> decide

end ElemType

end TraceFlow
