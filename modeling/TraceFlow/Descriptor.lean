import TraceFlow.ElemType
import TraceFlow.Word

set_option autoImplicit false

namespace TraceFlow

inductive Storage where
  | anywhere
  | cpuHeap
  | gpuGlobal
  deriving DecidableEq, Repr, Inhabited

namespace Storage

def text : Storage → String
  | anywhere => "Default"
  | cpuHeap => "CPU_Heap"
  | gpuGlobal => "GPU_Global"

def tag : Storage → String
  | anywhere => "Default"
  | cpuHeap => "CpuHeap"
  | gpuGlobal => "GpuGlobal"

end Storage

namespace Shape

-- The number of multi-indices, an empty dimension counting as one.
def span (shape : List Nat) : Nat :=
  shape.foldr (fun extent total => max extent 1 * total) 1

-- Strides of the dense layout: each steps over the dimensions after it.
def rowMajor : List Nat → List Nat
  | [] => []
  | _ :: rest => span rest :: rowMajor rest

def denseStrides (shape : List Nat) : Outcome (List Nat) :=
  (rowMajor shape).mapM checkSize

-- All multi-indices of a shape, the last dimension running fastest.
def indices : List Nat → List (List Nat)
  | [] => [[]]
  | 0 :: _ => []
  | extent :: rest =>
    match indices rest with
    | [] => []
    | inner => (List.range extent).flatMap fun i => inner.map (i :: ·)

def dot (index strides : List Nat) : Outcome Nat := do
  sizeSum (← (index.zip strides).mapM fun (i, s) => checkSize (i * s))

def offsetFrom (total : Nat) : List Nat → List Nat → List Nat → Outcome (Option Nat)
  | i :: index, extent :: shape, stride :: strides =>
    if i < extent then do
      let step ← checkSize (i * stride)
      offsetFrom (← checkSize (total + step)) index shape strides
    else .ok none
  | _, _, _ => .ok (some total)

-- The buffer offset of a multi-index, `none` if it is not an index of the shape.
def offset? (shape strides index : List Nat) : Outcome (Option Nat) :=
  if index.length = shape.length then offsetFrom 0 index shape strides else .ok none

def bufferLength (shape strides : List Nat) : Outcome Nat :=
  if shape.any (· == 0) then .ok 0
  else do
    let steps ← (shape.zip strides).mapM fun (extent, stride) => checkSize ((extent - 1) * stride)
    checkSize (1 + (← sizeSum steps))

theorem length_rowMajor (shape : List Nat) : (rowMajor shape).length = shape.length := by
  induction shape with
  | nil => rfl
  | cons extent rest ih => simp [rowMajor, ih]

end Shape

-- What a graph knows about one of its arrays.
structure Descriptor where
  shape : List Nat
  elem : ElemType
  strides : List Nat
  storage : Storage := .anywhere
  transient : Bool := true
  deriving DecidableEq, Repr

namespace Descriptor

def dense (shape : List Nat) (elem : ElemType) : Outcome Descriptor := do
  return { shape, elem, strides := ← Shape.denseStrides shape }

def rank (d : Descriptor) : Nat :=
  d.shape.length

def count (d : Descriptor) : Outcome Nat :=
  sizeProduct d.shape

def bufferLength (d : Descriptor) : Outcome Nat :=
  Shape.bufferLength d.shape d.strides

def offsetFrom (total : Nat) : List Int → List Nat → List Nat → Outcome (Option Nat)
  | i :: index, extent :: shape, stride :: strides =>
    if 0 ≤ i ∧ i < extent then do
      let step ← checkSize (i.toNat * stride)
      offsetFrom (← checkSize (total + step)) index shape strides
    else .ok none
  | _, _, _ => .ok (some total)

def offset? (d : Descriptor) (index : List Int) : Outcome (Option Nat) :=
  if index.length = d.shape.length then offsetFrom 0 index d.shape d.strides else .ok none

def isRowMajor (d : Descriptor) : Outcome Bool := do
  return d.strides == (← Shape.denseStrides d.shape)

def text (d : Descriptor) : Outcome String := do
  let extents := "x".intercalate (d.shape.map Nat.repr)
  let layout := if ← d.isRowMajor then ""
    else " strides=(" ++ ", ".intercalate (d.strides.map Nat.repr) ++ ")"
  let place := if d.storage = .anywhere then "" else " @" ++ d.storage.text
  let owner := if d.transient then " transient" else ""
  return d.elem.name ++ "[" ++ extents ++ "]" ++ layout ++ place ++ owner

end Descriptor

end TraceFlow
