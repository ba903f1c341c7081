import TraceFlow.Proofs.DenseLayout
import TraceFlow.Proofs.Dict
import TraceFlow.Proofs.LowerSteps

set_option autoImplicit false

namespace TraceFlow

open List

variable {array : Descriptor}

theorem Descriptor.dense_eq_ok {shape : List Nat} {elem : ElemType}
    (made : dense shape elem = .ok array) :
    array.shape = shape ∧ array.elem = elem ∧ array.strides = Shape.rowMajor shape ∧
    array.transient = true := by
  obtain ⟨strides, sizes, made⟩ := bind_eq_ok.mp made
  cases made
  exact ⟨rfl, rfl, Shape.denseStrides_eq_ok sizes, rfl⟩

namespace Builder

variable {v : Var} {name : String}

theorem nameOf?_naming {d : Draft} {w : Var} (name : String) :
    (d.naming v name).nameOf? w = if w.id = v.id then some name else d.nameOf? w := by
  rw [Draft.nameOf?, Draft.naming, find?_cons]
  by_cases same : w.id = v.id
  · simp [same]
  · have other : ¬ v.id = w.id := fun alike => same alike.symm
    simp only [other, decide_false, same, if_false]
    rfl

theorem NewArray.get?_older {d : Draft} {mapped : Nat} {before : String}
    (made : NewArray d mapped v before name array) {other : String} {found : Descriptor}
    (known : d.graph.arrays.get? other = some found) :
    ((d.withArray name array).naming v name).graph.arrays.get? other = some found := by
  have away : other ≠ name := by
    rintro rfl
    have free := made.free
    rw [Dict.contains, known] at free
    cases free
  exact (Dict.get?_insert ..).trans (by rw [if_neg away, known])

namespace Creates

variable {before : String} {d d' : Draft} {mapped : Nat} {vs : List Var} {names : List String}

variable (creates : Creates before d mapped vs names d')

include creates

theorem length_eq : names.length = vs.length := by
  induction creates with
  | nil => rfl
  | cons _ _ _ ih => exact congrArg (· + 1) ih

theorem constants_eq : d'.graph.constants = d.graph.constants := by
  induction creates with
  | nil => rfl
  | cons _ _ _ ih => exact ih

theorem get?_older (known : d.graph.arrays.get? name = some array) :
    d'.graph.arrays.get? name = some array := by
  induction creates with
  | nil => exact known
  | cons _ made _ ih => exact ih (made.get?_older known)

theorem nameOf?_older (known : d.nameOf? v = some name) : d'.nameOf? v = some name := by
  induction creates with
  | nil => exact known
  | @cons d _ _ w _ other _ array unmapped _ _ ih =>
    apply ih
    rw [nameOf?_naming]
    split
    next same =>
      -- Both would be one variable, which has a name and has none.
      rw [Draft.nameOf?, same] at known
      rw [Draft.nameOf?, known] at unmapped
      cases unmapped
    · exact known

theorem getElem? {j : Nat} (listed : vs[j]? = some v) :
    ∃ name array, names[j]? = some name ∧ d'.nameOf? v = some name ∧
    d'.graph.arrays.get? name = some array ∧
      Descriptor.dense (arrayShape v) v.elem = .ok array := by
  induction creates generalizing j with
  | nil => cases listed
  | @cons d d' mapped w vs name names array _ made later ih =>
    cases j with
    | zero =>
      cases listed
      refine ⟨name, array, rfl, later.nameOf?_older ?_, later.get?_older ?_, made.dense⟩
      · rw [nameOf?_naming, if_pos rfl]
      · exact (Dict.get?_insert ..).trans (if_pos rfl)
    | succ j => exact ih listed

theorem fresh : names.Nodup ∧ ∀ name ∈ names, d.graph.arrays.contains name = false := by
  induction creates with
  | nil => exact ⟨nodup_nil, by simp⟩
  | @cons d d' mapped v vs name names array _ made _ ih =>
    obtain ⟨distinct, new⟩ := ih
    have apart (other : String) (member : other ∈ names) :
      other ≠ name ∧ d.graph.arrays.contains other = false := by
      have absent : (d.graph.arrays.insert name array).contains other = false := new other member
      rw [Dict.contains, Dict.get?_insert] at absent
      split at absent
      · cases absent
      next away => exact ⟨away, absent⟩
    refine ⟨nodup_cons.mpr ⟨fun member => (apart name member).1 rfl, distinct⟩, ?_⟩
    exact forall_mem_cons.mpr ⟨made.free, fun other member => (apart other member).2⟩

end Creates

end Builder

end TraceFlow
