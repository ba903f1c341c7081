import TraceFlow.Descriptor
import TraceFlow.Dict

set_option autoImplicit false

namespace TraceFlow

structure Index where
  symbols : List String
  offset : Int
  deriving DecidableEq, Repr

namespace Index

def constant (offset : Int) : Index := ⟨[], offset⟩

def symbol (name : String) : Index := ⟨[name], 0⟩

def plus (e : Index) (offset : Int) : Outcome Index := do
  return { e with offset := ← checkIndex (e.offset + offset) }

def plusSymbol (e : Index) (name : String) : Index :=
  { e with symbols := e.symbols ++ [name] }

def isConstant (e : Index) : Bool :=
  e.symbols.isEmpty

def sumFrom (lookup : String → Option Int) (total : Int) : List String → Outcome (Option Int)
  | [] => .ok (some total)
  | symbol :: rest =>
    match lookup symbol with
    | none => .ok none
    | some value => do sumFrom lookup (← checkIndex (total + value)) rest

def eval (lookup : String → Option Int) (e : Index) : Outcome (Option Int) :=
  sumFrom lookup e.offset e.symbols

def text (e : Index) : Outcome String :=
  let sum := " + ".intercalate e.symbols
  if e.symbols.isEmpty then .ok (Text.integer e.offset)
  else if e.offset = 0 then .ok sum
  else if e.offset < 0 then do return sum ++ " - " ++ Text.integer (← checkIndex (-e.offset))
  else .ok (sum ++ " + " ++ Text.integer e.offset)

end Index

def rangeExtent (low high : Int) : Outcome Nat := do
  return (← checkIndex (high - low)).toNat

inductive Subscript where
  | at (index : Index)
  | range (low high : Int)
  deriving DecidableEq, Repr

namespace Subscript

def extent : Subscript → Outcome Nat
  | .at _ => .ok 1
  | .range low high => rangeExtent low high

def symbols : Subscript → List String
  | .at index => index.symbols
  | .range _ _ => []

def text : Subscript → Outcome String
  | .at index => index.text
  | .range low high => .ok (Text.integer low ++ ":" ++ Text.integer high)

end Subscript

structure Access where
  array : String
  subset : List Subscript
  deriving DecidableEq, Repr

namespace Access

def element (array : String) (indices : List Index) : Access :=
  ⟨array, indices.map .at⟩

def fullRanges (shape : List Nat) : List Subscript :=
  shape.map fun extent => .range 0 (signedWord extent)

def full (array : String) (d : Descriptor) : Access :=
  ⟨array, fullRanges d.shape⟩

def volume (a : Access) : Outcome Nat := do
  sizeProduct (← a.subset.mapM Subscript.extent)

def symbols (a : Access) : List String :=
  a.subset.flatMap Subscript.symbols

def text (a : Access) : Outcome String := do
  return a.array ++ "[" ++ ", ".intercalate (← a.subset.mapM Subscript.text) ++ "]"

end Access

structure Axis where
  param : String
  low : Int
  high : Int
  deriving DecidableEq, Repr

namespace Axis

def extent (a : Axis) : Outcome Nat :=
  rangeExtent a.low a.high

def text (a : Axis) : String :=
  a.param ++ "=" ++ Text.integer a.low ++ ":" ++ Text.integer a.high

end Axis

namespace Box

def run (low high : Int) : List Int :=
  (List.range (high - low).toNat).map fun (k : Nat) => low + k

-- All points of a product of half-open ranges, the last dimension running fastest.
def points : List (Int × Int) → List (List Int)
  | [] => [[]]
  | (low, high) :: rest =>
    if high ≤ low then []
    else match points rest with
      | [] => []
      | inner => (run low high).flatMap fun i => inner.map (i :: ·)

end Box

end TraceFlow
