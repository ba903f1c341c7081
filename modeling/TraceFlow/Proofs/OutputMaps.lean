import TraceFlow.Proofs.SingleRuns

set_option autoImplicit false

namespace TraceFlow

open Builder Kernel Lowering List
open Effect.MapBody (bindPoint)

-- The index in an array, which has an element for a scalar too.
def Shape.padded (index : List Nat) : List Nat :=
  if index = [] then [0] else index

section

variable {index : List Nat} {v : Var}

theorem Shape.padded_cases (member : index ∈ indices v.shape) : v.shape = [] ∧ index = [] ∨
    arrayShape v = v.shape ∧ padded index = index := by
  rw [padded, arrayShape]
  cases index with
  | nil => exact .inl ⟨forall₂_nil_left_iff.mp (mem_indices.mp member), rfl⟩
  | cons i index =>
    obtain ⟨extent, extents, -, -, shape⟩ := forall₂_cons_left_iff.mp (mem_indices.mp member)
    exact .inr ⟨by rw [shape]; rfl, rfl⟩

theorem Shape.padded_mem (member : index ∈ indices v.shape) : padded index ∈ indices
    (arrayShape v) := by
  rcases padded_cases member with ⟨scalar, rfl⟩ | ⟨shape, same⟩
  · rw [arrayShape, scalar]
    decide
  · rwa [shape, same]

theorem Shape.indices_arrayShape (v : Var) :
    indices (arrayShape v) = (indices v.shape).map padded := by
  by_cases scalar : v.shape = []
  · rw [arrayShape, scalar]
    rfl
  · have same (index : List Nat) (member : index ∈ indices v.shape) : padded index = index :=
      ((padded_cases member).resolve_left fun both => scalar both.1).2
    rw [arrayShape, if_neg (List.isEmpty_iff.not.mpr scalar), map_congr_left same, map_id']

end

namespace Elementwise

variable {index : List Nat}

theorem spans_axes (v : Var) : Axis.Spans (axes v.shape) ((axes v.shape).map Axis.param)
    (arrayShape v) where
  params_eq := rfl
  ranges := by
    rw [axes, arrayShape]
    split
    · rfl
    · have firsts := congrArg (List.map fun extent => ((0 : Int), signedWord extent))
        (zipIdx_map_fst 0 v.shape)
      simpa only [map_map, Function.comp_def, axis] using firsts
  distinct := by
    rw [axes]
    split
    · exact nodup_singleton _
    · rw [map_map]
      have named : (Axis.param ∘ fun (entry : Nat × Nat) => axis entry.2 entry.1) =
        (fun dim => "__i" ++ dim.repr) ∘ Prod.snd := rfl
      rw [named, ← map_map, zipIdx_map_snd]
      refine List.Nodup.map_on (fun i _ j _ same => ?_) (nodup_range' ..)
      exact Text.repr_inj.mp ((String.append_right_inj _).mp same)

theorem bound_axes (v : Var) (member : index ∈ Shape.indices (arrayShape v)) (symbols : Symbols) :
    List.Forall₂
    (fun (axis : Axis) (x : Nat) => (bindPoint (axes v.shape) (index.map Nat.cast) symbols).get?
      axis.param = some (x : Int)) (axes v.shape) index := by
  have spans := spans_axes v
  have counted := (Shape.mem_indices.mp member).length_eq
  refine forall₂_iff_get.mpr ⟨by rw [spans.counted, counted], fun i inside inside' => ?_⟩
  refine spans.get?_bindPoint counted (i := i) ?_ (getElem?_eq_getElem inside')
  rw [getElem?_map, getElem?_eq_getElem inside]
  rfl

theorem length_axes {shape : List Nat} (ranked : shape ≠ []) :
    (axes shape).length = shape.length := by
  rw [axes, if_neg (by simpa using ranked), length_map, length_zipIdx]

theorem target_within (v : Var) (others : List String) :
    List.Forall₂ (Index.Within ((axes v.shape).map Axis.param ++ others)) (target v.shape)
      (arrayShape v) := by
  rw [target, arrayShape]
  split
  · exact .cons (.inr ⟨0, rfl, Nat.one_pos, by decide⟩) .nil
  next ranked =>
    refine forall₂_map_left_iff.mpr (forall₂_iff_get.mpr ⟨length_axes (by simpa using ranked),
      fun i inside _ => ?_⟩)
    exact Index.within_symbol (mem_append_left _ (mem_map_of_mem (getElem_mem inside)))

theorem target_eval {v : Var} (small : ∀ extent ∈ v.shape, extent < indexBound)
    (member : index ∈ Shape.indices (arrayShape v)) (symbols : Symbols) : List.Forall₂
      (fun (part : Index) i => part.eval
        (bindPoint (axes v.shape) (index.map Nat.cast) symbols).get? = .ok (some i))
    (target v.shape) (index.map Nat.cast) := by
  have bound := bound_axes v member symbols
  have inside := Shape.mem_indices.mp member
  rw [target]
  rw [arrayShape] at inside
  split
  next scalar =>
    rw [if_pos scalar] at inside
    obtain ⟨i, rest, below, none, rfl⟩ := forall₂_cons_right_iff.mp inside
    cases forall₂_nil_right_iff.mp none
    obtain rfl : i = 0 := by omega
    exact .cons rfl .nil
  next ranked =>
    rw [if_neg ranked] at inside
    refine forall₂_map_left_iff.mpr (forall₂_map_right_iff.mpr ?_)
    refine forall₂_iff_get.mpr ⟨bound.length_eq, fun i within within' => ?_⟩
    have here := (forall₂_iff_get.mp bound).2 i within within'
    have below := (forall₂_iff_get.mp inside).2 i within' (inside.length_eq ▸ within')
    exact Index.eval_symbol here (below.trans (small _ (get_mem _ _)))

def mapNode (label code output : String) (out : Var) (reads dynamic : Dict Access) : MapNode :=
  { label, axes := axes out.shape, inputs := reads, dynamic, code := "__out = " ++ code,
    outputs := Dict.ofList [("__out", .element output (target out.shape))] }

def mapBody (label code output : String) (out : Var) (reads dynamic : Dict Access) (value : Expr) :
    Effect.MapBody :=
  ⟨mapNode label code output out reads dynamic, value, .element output (target out.shape)⟩

theorem prepare_mapNode {label code output : String} {out : Var} {reads dynamic : Dict Access}
    {value : Expr} (parsed : Assignment.parse ("__out = " ++ code) = .ok ⟨"__out", value⟩) :
    Program.prepare (mapNode label code output out reads dynamic) = .ok
      (mapBody label code output out reads dynamic value) := by
  rw [Program.prepare, mapNode, parsed, ok_bind]
  rfl

end Elementwise

open Elementwise in
theorem Equation.Single.evaluate_map {e : Equation} {inputs : List Var} {out : Var}
    (single : e.Single inputs out) {nodes : Nodes} (known : nodesOf? e.primitive = some nodes) :
    ∃ array output arrays, Arranged inputs out array output arrays ∧
      (Outcome.Succeeds (lower .builtin (e.over inputs) none (.new 0)).1 ↔
        (nodes arrays (e.inputs.map (Atom.array? array)) [output] e).Succeeds) ∧
      ∀ label code reads dynamic value,
        nodes arrays (e.inputs.map (Atom.array? array)) [output] e = .ok
          [.map (mapNode label code output out reads dynamic)] →
        Assignment.parse ("__out = " ++ code) = .ok ⟨"__out", value⟩ → (∀ entry ∈ reads.entries,
          entry.2.Allowed arrays ((axes out.shape).map Axis.param ++ dynamic.keys)) →
        (∀ entry ∈ dynamic.entries, entry.2.Allowed arrays [] ∧ entry.2.volume = .ok 1) →
        ∀ specs args given options, Called inputs specs args given →
        (∀ v ∈ inputs, v.Elements (given v)) ∧ ∀ symbols (outcome : List Nat → Outcome Datum),
          (∀ memory : Memory, (∀ v ∈ inputs, HoldsOperand memory (array v) v (given v)) →
            Effect.MapBody.dynamicSymbols memory dynamic.entries {} = .ok symbols ∧
            ∀ index ∈ Shape.indices out.shape,
              (mapBody label code output out reads dynamic value).kernelAt memory
                (bindPoint (axes out.shape) ((Shape.padded index).map Nat.cast) symbols) =
                outcome index) → e.Ends inputs out specs options args
              (((Shape.indices out.shape).mapM outcome).map (List.map (·.cast out.elem))) := by
  obtain ⟨array, output, arrays, arranged, lowers, run⟩ := single.evaluate known
  refine ⟨array, output, arrays, arranged, lowers,
    fun label code reads dynamic value noded parsed each fetched specs args given options called =>
    ?_⟩
  have fits := single.fits out (mem_append_right _ mem_cons_self)
  have whole := single.whole out (mem_append_right _ mem_cons_self)
  obtain ⟨array', present, shape'⟩ := arranged.result
  have admitted : Node.Admitted arrays (.map (mapNode label code output out reads dynamic)) := by
    refine MapNode.admitted (spans_axes out) fits.padded.extents rfl (by simp [mapNode]) fetched
      fun access member => ?_
    obtain ⟨entry, listed, rfl⟩ := mem_map.mp member
    rcases mem_append.mp listed with read | written
    · exact each entry read
    · cases mem_singleton.mp written
      exact .element present (shape' ▸ target_within out dynamic.keys)
  have compiled : Program.compileNodes [.map (mapNode label code output out reads dynamic)] =
      .ok (Effect.map (mapBody label code output out reads dynamic value)) := by
    simp only [Program.compileNodes, prepare_mapNode parsed, ok_bind, Outcome.pure_eq,
      Effect.andThen_skip]
  obtain ⟨memory, t, count, set, fails, succeeds⟩ :=
    run _ _ noded compiled (forall_mem_singleton.mpr admitted) specs args given options called
  refine ⟨fun v member => (set.holds v member).elements (single.whole v (mem_append_left _ member)),
    fun symbols outcome kernel => ?_⟩
  let computed (index : List Nat) : Outcome Datum :=
    (mapBody label code output out reads dynamic value).kernelAt memory
      (bindPoint (axes out.shape) (index.map Nat.cast) symbols)
  have evaluated : (Shape.indices out.shape).mapM outcome = (Shape.indices (arrayShape out)).mapM
    computed := by
    rw [Shape.indices_arrayShape, mapM_map]
    exact Outcome.mapM_congr fun index member => ((kernel memory set.holds).2 index member).symm
  have computes : (mapBody label code output out reads dynamic value).Computes memory symbols t
    ((Shape.indices (arrayShape out)).map (·.map Nat.cast))
      (fun point => point.map Int.toNat) fun point => computed (point.map Int.toNat) := by
    obtain ⟨count, counted, few⟩ := fits.padded.counted
    refine ⟨(kernel memory set.holds).1, (spans_axes out).points_eq counted few rfl,
      fun between others point member => ?_, fun point member => ?_,
      fun point member => ?_⟩
    all_goals
      obtain ⟨index, inside, rfl⟩ := mem_map.mp member
      rw [Shape.toNat_cast]
    · rw [Shape.indices_arrayShape] at inside
      obtain ⟨index, listed, rfl⟩ := mem_map.mp inside
      have same := (kernel between fun v input => (set.holds v input).congr
        (others _ (arranged.operand v input).1)).2 index listed
      exact same.trans ((kernel memory set.holds).2 index listed).symm
    · exact Access.elementIndex_eq (target_eval fits.extents inside symbols)
    · rw [set.shape]
      exact inside
  rw [evaluated]
  cases ended : (Shape.indices (arrayShape out)).mapM computed with
  | error failure =>
    refine fails failure (computes.fails set.dense set.blank ?_)
    rw [mapM_map]
    simpa only [Function.comp_def, Shape.toNat_cast] using ended
  | ok data =>
    have each := mapM_eq_ok.mp ended
    have gives (index : List Nat) (member : index ∈ Shape.indices (arrayShape out)) :
      ∃ d, computed index = .ok d := by
      obtain ⟨d, -, given⟩ := Outcome.forall₂_left each member
      exact ⟨d, given⟩
    choose! datum gives using gives
    obtain rfl : data = (Shape.indices (arrayShape out)).map datum := by
      have mapped := mapM_eq_ok.mpr (forall₂_map_right_iff.mpr (forall₂_same.mpr gives))
      exact Except.ok.inj (ended.symm.trans mapped)
    have targets : ((Shape.indices (arrayShape out)).map (·.map (Nat.cast : Nat → Int))).map
      (fun point => point.map Int.toNat) =
        Shape.indices (arrayShape out) := by
      rw [map_map]
      exact map_id'' Shape.toNat_cast _
    obtain ⟨done, u, ran, others, found, laidOut, read⟩ :=
      computes.succeeds set.dense set.blank (by rw [targets]; exact Shape.nodup_indices _)
      datum fun point listed => by
        obtain ⟨index, inside, rfl⟩ := mem_map.mp listed
        rw [Shape.toNat_cast]
        exact gives index inside
    refine succeeds done u _ ran others found laidOut (read.trans (congrArg _ ?_))
    rw [targets, set.shape, map_map]
    refine map_congr_left fun index inside => ?_
    rw [if_pos inside, set.elem, ElemType.recode_eq_cast whole]
    rfl

end TraceFlow
