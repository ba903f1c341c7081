import TraceFlow.Datum
import TraceFlow.Descriptor

set_option autoImplicit false

namespace TraceFlow

-- The number in the `count` bytes from `start`, least byte first.
def wordAt (bytes : Array UInt8) (start : Nat) : Nat → Nat
  | 0 => 0
  | count + 1 => (bytes.getD start 0).toNat + 256 * wordAt bytes (start + 1) count

def writeWord (bytes : Array UInt8) (start : Nat) : Nat → Nat → Array UInt8
  | 0, _ => bytes
  | count + 1, n =>
    writeWord (bytes.setIfInBounds start (n % 256).toUInt8) (start + 1) count (n / 256)

@[simp] theorem size_writeWord (bytes : Array UInt8) (start count n : Nat) :
    (writeWord bytes start count n).size = bytes.size := by
  induction count generalizing bytes start n with
  | zero => rfl
  | succ count ih => simp [writeWord, ih]

namespace ElemType

def decode (t : ElemType) (word : Nat) : Datum :=
  match t with
  | .bool => .bool (word != 0)
  | .int8 | .int16 | .int32 | .int64 =>
    .int (Int64.ofInt (Int.bmod word (1 <<< (8 * t.width))))
  | .uint8 | .uint16 | .uint32 | .uint64 => .uint word.toUInt64
  | .float32 => .float (Float32.ofBits word.toUInt32).toFloat
  | .float64 => .float (Float.ofBits word.toUInt64)

-- The word a datum is stored as; only its low bytes are kept.
def encode (t : ElemType) (d : Datum) : Nat :=
  match d.cast t with
  | .bool v => if v then 1 else 0
  | .int v => v.toUInt64.toNat
  | .uint v => v.toNat
  | .float v => if t = .float32 then v.toFloat32.toBits.toNat else v.toBits.toNat

end ElemType

structure Tensor where
  elem : ElemType
  shape : List Nat
  strides : List Nat
  storage : Storage
  bytes : Array UInt8

namespace Tensor

instance : Inhabited Tensor := ⟨⟨.bool, [], [], .cpuHeap, #[]⟩⟩

def blank (elem : ElemType) (count : Nat) : Outcome (Array UInt8) := do
  let size ← checkSize (count * elem.width)
  checkCapacity size 1
  return Array.replicate size 0

def zeros (elem : ElemType) (shape : List Nat) : Outcome Tensor := do
  let count ← sizeProduct shape
  let strides ← Shape.denseStrides shape
  return { elem, shape, strides, storage := .cpuHeap, bytes := ← blank elem count }

def ofDescriptor (d : Descriptor) : Outcome Tensor := do
  let bytes ← blank d.elem (← d.bufferLength)
  let storage := if d.storage = .anywhere then .cpuHeap else d.storage
  return { elem := d.elem, shape := d.shape, strides := d.strides, storage, bytes }

def rank (t : Tensor) : Nat :=
  t.shape.length

def count (t : Tensor) : Outcome Nat :=
  sizeProduct t.shape

def bufferCount (t : Tensor) : Nat :=
  t.bytes.size / t.elem.width

def withStorage (t : Tensor) (storage : Storage) : Tensor :=
  { t with storage }

def descriptor (t : Tensor) : Outcome Descriptor := do
  let dense ← Descriptor.dense t.shape t.elem
  return { dense with strides := t.strides, storage := t.storage, transient := false }

def get (t : Tensor) (offset : Nat) : Outcome Datum :=
  if (offset + 1) * t.elem.width ≤ t.bytes.size then
    .ok (t.elem.decode (wordAt t.bytes (offset * t.elem.width) t.elem.width))
  else .error (.fault .outOfRange)

def set (t : Tensor) (offset : Nat) (d : Datum) : Outcome Tensor :=
  if (offset + 1) * t.elem.width ≤ t.bytes.size then
    let word := t.elem.encode d
    .ok { t with bytes := writeWord t.bytes (offset * t.elem.width) t.elem.width word }
  else .error (.fault .outOfRange)

def store (t : Tensor) : List (Nat × Datum) → Outcome Tensor
  | [] => .ok t
  | (offset, d) :: rest => do store (← t.set offset d) rest

def offset? (t : Tensor) (index : List Nat) : Outcome (Option Nat) :=
  Shape.offset? t.shape t.strides index

def offsets (t : Tensor) : Outcome (List Nat) := do
  checkCapacity (← t.count) 8
  (Shape.indices t.shape).mapM fun index => Shape.dot index t.strides

def values (t : Tensor) : Outcome (List Datum) := do
  (← t.offsets).mapM t.get

def buffer (t : Tensor) : Outcome (List Datum) :=
  (List.range t.bufferCount).mapM t.get

def ofValues (elem : ElemType) (shape : List Nat) (values : List Datum) : Outcome Tensor := do
  let count ← sizeProduct shape
  if values.length ≠ count then
    refuse (.argument
      s!"array data length ({values.length}) does not match shape {Text.naturals shape}")
  (← zeros elem shape).store ((List.range count).zip values)

def ofScalar (s : Scalar) : Outcome Tensor := do
  (← zeros s.elem [1]).set 0 s.value

def assign (t : Tensor) (values : List Datum) : Outcome Tensor := do
  t.store ((← t.offsets).zip values)

def relayout (t : Tensor) (strides : List Nat) : Outcome Tensor := do
  if strides.length ≠ t.rank then
    refuse (.argument s!"{strides.length} strides given for an array of rank {t.rank}")
  let dense ← Descriptor.dense t.shape t.elem
  let target ← ofDescriptor { dense with strides, storage := t.storage }
  let targets ← target.offsets
  target.store (targets.zip (← t.values))

def reshape (t : Tensor) (shape : List Nat) : Outcome Tensor := do
  let count ← sizeProduct shape
  if count ≠ (← t.count) then
    refuse (.argument s!"can not reshape {Text.naturals t.shape} into {Text.naturals shape}")
  return (← ofValues t.elem shape (← t.values)).withStorage t.storage

def typeText (t : Tensor) : String :=
  t.elem.name ++ Text.naturals t.shape

end Tensor

inductive Argument where
  | tensor (value : Tensor)
  | scalar (value : Scalar)
  | tuple (parts : List Argument)

end TraceFlow
