import TraceFlow.Proofs.NewArrays
import TraceFlow.Proofs.StagedRuns
import TraceFlow.Proofs.Validity

set_option autoImplicit false

namespace TraceFlow

open List

abbrev Shape.Listable (shape : List Nat) : Prop :=
  ∃ count, sizeProduct shape = .ok count ∧ count * 24 < indexBound

-- The strides of the dense layout and the extents are words, and so is the room for all
-- multi-indices.
structure Shape.Fits (shape : List Nat) : Prop where
  strides : (Shape.denseStrides shape).Succeeds
  extents : ∀ extent ∈ shape, extent < indexBound
  counted : Listable shape

namespace Shape.Fits

theorem single : Fits [1] :=
  ⟨⟨_, rfl⟩, by decide, 1, rfl, by decide⟩

theorem padded {v : Var} (fits : Fits v.shape) : Fits (Builder.arrayShape v) := by
  rw [Builder.arrayShape]
  split
  · exact single
  · exact fits

variable {shape : List Nat}

theorem dense (fits : Fits shape) (elem : ElemType) :
    ∃ array, Descriptor.dense shape elem = .ok array := by
  obtain ⟨strides, sizes⟩ := fits.strides
  rw [Descriptor.dense, sizes]
  exact ⟨_, rfl⟩

end Shape.Fits

theorem Shape.Listable.ofDescriptor {d : Descriptor} (listable : Listable d.shape)
    (strides : d.strides = rowMajor d.shape) :
    ∃ count t, sizeProduct d.shape = .ok count ∧ Tensor.ofDescriptor d = .ok t ∧ t.Dense count ∧
    t.elem = d.elem ∧ t.shape = d.shape := by
  obtain ⟨count, counted, few⟩ := listable
  have product := eq_prod_of_sizeProduct counted
  have narrow : d.elem.width ≤ 8 := by cases d.elem <;> decide
  have small : count * d.elem.width < indexBound :=
    (Nat.mul_le_mul_left count (narrow.trans (by decide))).trans_lt few
  have length : d.bufferLength = .ok count := by
    rw [Descriptor.bufferLength, strides, bufferLength_rowMajor_eq, ← product, if_pos]
    have : indexBound ≤ sizeBound := by decide
    omega
  have made := Tensor.ofDescriptor_eq_ok.mpr ⟨count, length, small, rfl⟩
  obtain ⟨-, elem, shape, dense⟩ := Tensor.ofDescriptor_rowMajor strides counted made
  exact ⟨count, _, counted, made, dense few, elem, shape⟩

namespace Graph

variable {g : Graph} {locals : List String}

variable {d d' : Descriptor} {access : Access}

theorem checkSubscripts_eq_ok {dim : Nat} {parts : List (Subscript × Nat)}
    (inside : ∀ part ∈ parts, inBounds part.2 part.1 = true ∧ ∀ symbol ∈ part.1.symbols,
      symbol ∈ locals ∨ g.symbols.contains symbol = true) :
    checkSubscripts g locals access dim parts = .ok () := by
  induction parts generalizing dim with
  | nil => rfl
  | cons part rest ih =>
    obtain ⟨subscript, extent⟩ := part
    obtain ⟨⟨bounded, known⟩, others⟩ := forall_mem_cons.mp inside
    rw [checkSubscripts, if_neg (by simp [bounded])]
    refine bind_eq_ok.mpr ⟨(), Outcome.forM_eq_ok.mpr fun symbol member => ?_, ih others⟩
    rw [if_neg]
    · rfl
    · rintro ⟨foreign, undeclared⟩
      exact (known symbol member).elim foreign undeclared

theorem checkAccess_eq_ok (known : g.array? access.array = some d)
    (rank : access.subset.length = d.rank)
    (inside : ∀ part ∈ access.subset.zip d.shape, inBounds part.2 part.1 = true ∧
      ∀ symbol ∈ part.1.symbols, symbol ∈ locals ∨ g.symbols.contains symbol = true)
    : checkAccess g locals access = .ok () := by
  unfold checkAccess
  rw [known]
  simp only [rank, ne_eq, not_true_eq_false, if_false]
  exact checkSubscripts_eq_ok inside

theorem checkAccess_full {name : String} (known : g.array? name = some d')
    (shape : d'.shape = d.shape)
    (extents : ∀ extent ∈ d.shape, extent < indexBound) : checkAccess g locals (.full name d) = .ok
      () := by
  refine checkAccess_eq_ok known (by simp [Access.full, Access.fullRanges, Descriptor.rank, shape])
    ?_
  rintro ⟨subscript, extent⟩ member
  rw [shape] at member
  obtain ⟨i, found⟩ := mem_iff_getElem?.mp member
  obtain ⟨ranged, listed⟩ := getElem?_zip_eq_some.mp found
  obtain rfl : Subscript.range 0 (signedWord extent) = subscript := by
    simpa [Access.full, Access.fullRanges, listed] using ranged
  have small := extents extent (mem_of_getElem? listed)
  refine ⟨?_, fun symbol impossible => by cases impossible⟩
  simp [inBounds, signedWord_eq small]

theorem checkCopy_full {source target : String} {read written : Descriptor}
    (fits : Shape.Fits d.shape) (shape : d'.shape = d.shape)
    (reads : g.array? source = some read) (shape' : read.shape = d.shape)
    (writes : g.array? target = some written) (shape'' : written.shape = d.shape) :
    checkCopy g 0 (.full source d) (.full target d') = .ok () := by
  obtain ⟨count, counted, few⟩ := fits.counted
  have small : count < indexBound := (Nat.le_mul_of_pos_right count (by decide)).trans_lt few
  refine checkCopy_eq_ok.mpr ⟨checkAccess_full reads shape' fits.extents,
    checkAccess_full writes (shape''.trans shape.symm) (shape ▸ fits.extents), count, ?_, ?_⟩
  · exact Access.volume_full counted small
  · exact Access.volume_full (shape ▸ counted) small

end Graph

end TraceFlow
