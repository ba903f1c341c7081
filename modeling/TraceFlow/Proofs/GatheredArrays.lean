import TraceFlow.Proofs.GatheredPlaces
import TraceFlow.Proofs.SingleRuns

set_option autoImplicit false

namespace TraceFlow

open Builder Kernel Lowering List
open Effect.MapBody (bindPoint)

variable {scope : Scope} {t : ElemType}

theorem Kernel.Expr.evalAll_eq_ok {es : List Expr} {ds : List Datum}
    (each : List.Forall₂ (fun e d => Expr.eval scope e = .ok d) es ds) :
    Expr.evalAll scope es = .ok ds := by
  induction each with
  | nil => rw [evalAll]
  | cons here _ ih =>
    rw [evalAll, here, ok_bind, ih]
    rfl

theorem mapM_checkIndex {place shape : List Nat} (small : ∀ extent ∈ shape, extent < indexBound)
    (inside : List.Forall₂ (· < ·) place shape) :
    ((place.map Nat.cast).zip (shape.map fun _ => (0 : Int))).mapM
      (fun (i, low) => checkIndex (i + low)) = .ok (place.map Nat.cast) := by
  induction inside with
  | nil => rfl
  | @cons i extent place shape below inside ih =>
    obtain ⟨here, small⟩ := forall_mem_cons.mp small
    have kept : checkIndex ((i : Int) + 0) = .ok (i : Int) := by
      rw [Int.add_zero]
      exact checkIndex_cast (Nat.lt_trans below here)
    rw [map_cons, map_cons, zip_cons_cons, mapM_cons]
    dsimp only
    rw [kept, ok_bind, ih small]
    rfl

theorem ElemType.isFloat_of_isInteger (integer : t.isInteger = true) : t.isFloat = false := by
  cases t
  case float32 | float64 => cases integer
  all_goals rfl

namespace Datum

variable {d : Datum} {n : Int}

theorem whole_of_cast (integer : t.isInteger = true) (same : d.cast t = d) : Whole d := by
  rw [← same]
  cases t with
  | float32 | float64 => cases integer
  | bool | int8 | int16 | int32 | int64 | uint8 | uint16 | uint32 | uint64 => exact trivial

theorem Stands.toInt64_toInt (stands : d.Stands n) (low : 0 ≤ n) (high : n < indexBound) :
    d.toInt64.toInt = n := by
  rw [← Int64.toInt_toBitVec, stands.signed, BitVec.toInt_ofInt]
  have : (indexBound : Int) = 2 ^ 63 := rfl
  exact Int.bmod_eq_of_le (by omega) (by omega)

theorem stands_ofInt (n : Int) : (Datum.int (Int64.ofInt n)).Stands n :=
  stands_int rfl

end Datum

namespace Gather

section

variable {source index : String} {shape : List Nat} {params : List String} {startMap : List Nat}

theorem get?_start (distinct : startMap.Nodup) {i dim : Nat} (listed : startMap[i]? = some dim) :
    (reads source index shape params startMap).get? ("__gather_" ++ dim.repr) = some
      (.element index (params.map Index.symbol ++ [.constant i])) := by
  cases found : (reads source index shape params startMap).get? ("__gather_" ++ dim.repr) with
  | none => exact absurd (start_mem_reads (mem_of_getElem? listed)) (Dict.lookup_eq_none.mp found)
  | some access =>
    rcases mem_reads (Dict.mem_of_lookup found) with same | ⟨dim', i', listed', same⟩
    · exact absurd (congrArg Prod.fst same) (start_ne_source dim)
    · obtain ⟨named, rfl⟩ := Prod.mk.inj same
      cases Text.repr_inj.mp ((String.append_right_inj _).mp named)
      rw [(getElem?_inj (List.getElem?_eq_some_iff.mp listed).1 distinct).mp
        (listed.trans listed'.symm)]

end

namespace Plan

def mapBody (p : Plan) (source index output : String) (sourceShape outputShape : List Nat) :
    Effect.MapBody :=
  ⟨p.mapNode source index output sourceShape outputShape,
    .subscript "__arr" ((List.range p.sizes.length).map fun dim => (p.part dim).2.2),
    .element output (p.written output outputShape.length)⟩

namespace Suits

variable {p : Plan} {source index out : Var} (suits : p.Suits source.shape index.shape out.shape)

include suits

theorem prepare_eq (src idx output : String) :
    Program.prepare (p.mapNode src idx output source.shape out.shape) = .ok
      (p.mapBody src idx output source.shape out.shape) := by
  have some : (List.range p.sizes.length).map p.part ≠ [] := by
    have ranked := suits.ranked
    rw [← length_pos_iff, ← suits.small.length_eq] at ranked
    rw [← length_pos_iff]
    simpa using ranked
  have parsed := @parse_indexed _ "__arr" (by decide) some fun part listed => by
    obtain ⟨dim, -, rfl⟩ := mem_map.mp listed
    exact p.subscript_part dim
  simp only [map_map, Function.comp_def] at parsed
  have code : "__out = __arr" ++ Text.bracketed ((List.range p.sizes.length).map fun dim =>
    (p.part dim).1) =
      "__out = " ++ ("__arr" ++ Text.bracketed ((List.range p.sizes.length).map fun dim =>
        (p.part dim).1)) := by
    rw [← String.append_assoc]
    rfl
  rw [Program.prepare, mapNode, code, parsed, ok_bind]
  rfl

variable {e : Equation} {inputs : List Var} {array : Var → String} {output : String}
  {arrays : Dict Descriptor}

theorem nodes_eq (params : Plan.ofParams e.params = .ok p)
    (reads : e.inputs = [.var source, .var index]) (outputs : e.outputs = [out]) :
    Gather.nodes arrays (e.inputs.map (Atom.array? array)) [output] e =
      .ok [.map (p.mapNode (array source) (array index) output source.shape out.shape)] := by
  have first : outputOf [output] e = .ok (output, out) := by
    unfold outputOf
    rw [outputs]
  have made := suits.node_eq (array source) (array index) output
  unfold Gather.nodes
  rw [reads]
  simp only [map_cons, map_nil, Atom.array?, first, params, Atom.shape, made, ok_bind]
  rfl

theorem admitted (arranged : Arranged inputs out array output arrays)
    (fits : ∀ v ∈ inputs ++ [out], Shape.Fits v.shape) (closed : source ∈ inputs ∧ index ∈ inputs) :
    Node.Admitted arrays
      (.map (p.mapNode (array source) (array index) output source.shape out.shape)) := by
  have ranked (v : Var) (some : v.shape ≠ []) : arrayShape v = v.shape := by
    rw [arrayShape, if_neg (List.isEmpty_iff.not.mpr some)]
  have indexed : index.shape ≠ [] := by
    rw [suits.index_eq]
    simp
  obtain ⟨d, present, shape⟩ := (arranged.operand source closed.1).2
  obtain ⟨d', present', shape'⟩ := (arranged.operand index closed.2).2
  obtain ⟨d'', present'', shape''⟩ := arranged.result
  rw [ranked source suits.ranked] at shape
  rw [ranked index indexed] at shape'
  have extents (v : Var) (member : v ∈ inputs ++ [out]) := (fits v member).extents
  refine MapNode.admitted (suits.spans output)
    (suits.extents_lt (extents out (mem_append_right _ mem_cons_self))) rfl
    (by simp [mapNode]) (fun entry member => by cases member) fun access member => ?_
  have locals : (p.mapNode (array source) (array index) output source.shape out.shape).locals =
    p.mapParams output out.shape :=
    (append_nil _).trans (suits.spans output).params_eq
  rw [locals]
  obtain ⟨⟨c, a⟩, listed, rfl⟩ := mem_map.mp member
  rcases mem_append.mp listed with input | written
  · rcases mem_reads input with same | ⟨dim, i, start, same⟩
    · cases same
      rw [← shape]
      exact .full present (shape ▸ extents source (mem_append_left _ closed.1))
    · cases same
      exact .element present' (shape' ▸ suits.start_within output start
        (extents index (mem_append_left _ closed.2)))
  · cases mem_singleton.mp written
    exact .element present'' (shape'' ▸ suits.written_within output)

end Suits

theorem eval_part {p : Plan} (collapses : ∀ dim ∈ p.collapsed, dim ∈ p.startMap) {start : Nat → Int}
    {offset : Nat → Nat} {dim : Nat}
    (below : dim < p.sizes.length) (free : dim ∉ p.startMap → start dim = 0)
    (fixed : dim ∈ p.collapsed → offset dim = 0)
    (starts : dim ∈ p.startMap → ∃ d, scope.value? ("__gather_" ++ dim.repr) = some d ∧
      d.Stands (start dim)) (axes : dim ∈ p.keptDims →
      scope.value? ("__i" ++ dim.repr) = some (.int (Int64.ofInt (offset dim)))) :
    ∃ d, (p.part dim).2.2.eval scope = .ok d ∧ d.Stands (start dim + offset dim) := by
  have kept (open_ : dim ∉ p.collapsed) : dim ∈ p.keptDims :=
    mem_filter.mpr ⟨mem_range.mpr below, by simpa using open_⟩
  by_cases indexed : dim ∈ p.startMap
  · obtain ⟨d, bound, stands⟩ := starts indexed
    by_cases collapsed : dim ∈ p.collapsed
    · have value : (p.part dim).2.2 = .name ("__gather_" ++ dim.repr) := by
        simp [part, indexed, collapsed]
      refine ⟨d, by simp only [value, Expr.eval, bound], ?_⟩
      rwa [fixed collapsed, Int.natCast_zero, Int.add_zero]
    · have value : (p.part dim).2.2 = .arith .add (.name ("__gather_" ++ dim.repr))
        (.name ("__i" ++ dim.repr)) := by
        simp [part, indexed, collapsed]
      obtain ⟨sum, added, stands⟩ := ArithOp.apply_stands (rfl : ArithOp.add.ordered = false) stands
        (Datum.stands_ofInt (offset dim))
      exact ⟨sum,
        by simp only [value, Expr.eval, bound, axes (kept collapsed), ok_bind, added], stands⟩
  · have value : (p.part dim).2.2 = .name ("__i" ++ dim.repr) := by simp [part, indexed]
    refine ⟨.int (Int64.ofInt
      (offset
        dim)),
        by simp only [value, Expr.eval,
          axes (kept fun collapsed => indexed (collapses dim collapsed))], ?_⟩
    rw [free indexed, Int.zero_add]
    exact Datum.stands_ofInt _

namespace Suits

variable {p : Plan} {source index out : Var} (suits : p.Suits source.shape index.shape out.shape)
  {src idx output : String} {memory : Memory}
  {values starts : List Datum}

include suits

theorem windowElement_eq (small : ∀ extent ∈ source.shape, extent < indexBound)
    (holds : HoldsOperand memory src source values)
    {place : List Nat} (inside : place ∈ Shape.indices source.shape) :
    (p.mapBody src idx output source.shape out.shape).windowElement memory "__arr"
      (place.map Nat.cast) = .ok (Shape.pick source.shape values place) := by
  obtain ⟨count, t, found, dense, -, shape, known⟩ := holds
  rw [arrayShape, if_neg (List.isEmpty_iff.not.mpr suits.ranked)] at shape
  have window : Dict.lookup "__arr" (p.mapBody src idx output source.shape out.shape).windows =
    some ⟨src, source.shape.map fun _ => 0⟩ :=
    lookup_windows get?_source (window?_full suits.ranked)
  have counted : place.length = source.shape.length := (Shape.mem_indices.mp inside).length_eq
  have member : place ∈ Shape.indices t.shape := shape ▸ inside
  have array : memory.array src = .ok t := Memory.array_eq_ok.mpr found
  rw [Effect.MapBody.windowElement, window]
  dsimp only
  rw [if_neg (by simp [counted]), mapM_checkIndex small (Shape.mem_indices.mp inside), ok_bind,
    array, ok_bind,
    dense.read known member, shape]

theorem mem_elements {c : String} {access : Access} :
    (c, access) ∈ (p.mapBody src idx output source.shape out.shape).elements ↔
    ∃ i dim : Nat, p.startMap[i]? = some dim ∧ c = "__gather_" ++ dim.repr ∧
      access = .element idx (((p.batchDims out.shape.length).map (patchParam output)).map
        Index.symbol ++ [.constant i]) := by
  constructor
  · intro member
    obtain ⟨listed, element⟩ := mem_filter.mp member
    rcases mem_reads listed with same | ⟨dim, i, start, same⟩
    · cases same
      have element : (Effect.window? ⟨src, Access.fullRanges source.shape⟩).isNone = true := element
      rw [window?_full suits.ranked] at element
      cases element
    · cases same
      exact ⟨i, dim, start, rfl, rfl⟩
  · rintro ⟨i, dim, start, rfl, rfl⟩
    exact mem_filter.mpr ⟨Dict.mem_of_lookup
      (get?_start suits.apart start), by simp [Elementwise.window?_element]⟩

theorem kernelAt_index (small : ∀ v ∈ [source, out], ∀ extent ∈ v.shape, extent < indexBound)
    (holds : HoldsOperand memory src source values)
    (holds' : HoldsOperand memory idx index starts) (whole : ∀ d ∈ starts, Whole d) {at_ : List Nat}
    (member : at_ ∈ Shape.indices (arrayShape out))
    (within : List.Forall₂ (fun (i : Int) (extent : Nat) => 0 ≤ i ∧ i < extent)
      (p.position out.shape.length index.shape starts at_) source.shape) :
    (p.mapBody src idx output source.shape out.shape).kernelAt memory
        (bindPoint (p.mapAxes output out.shape) ((p.pointOf out.shape at_).map Nat.cast) {}) = .ok
        (Shape.pick source.shape values
          ((p.position out.shape.length index.shape starts at_).map Int.toNat)) := by
  have smallSource := small source (by simp)
  have smallOut := small out (by simp)
  have indexed : index.shape ≠ [] := by
    rw [suits.index_eq]
    simp
  -- A start is the element of the index array at the batch part of the index.
  have start {i dim : Nat} (listed : p.startMap[i]? = some dim) : ∃ d ∈ starts,
      d = Shape.pick index.shape starts (Shape.along (p.batchDims out.shape.length) at_ ++ [i]) ∧
      (Access.element idx (((p.batchDims out.shape.length).map (patchParam output)).map
        Index.symbol ++ [.constant i])).readElement memory
        (bindPoint (p.mapAxes output out.shape) ((p.pointOf out.shape at_).map Nat.cast) {}).get? =
        .ok d := by
    obtain ⟨count, t, found, dense, -, shape, known⟩ := holds'
    rw [arrayShape, if_neg (List.isEmpty_iff.not.mpr indexed)] at shape
    have inside := suits.batch_mem member listed
    have read := @Access.readElement_index starts count memory _ (.element idx _) t _ found dense
      known (shape ▸ inside)
      (Access.elementIndex_eq (suits.start_eval output smallOut member i))
    have length := (dense.length_values known).trans (eq_prod_of_sizeProduct dense.counted)
    rw [shape] at read length
    exact ⟨_, Shape.pick_mem length inside, rfl, read⟩
  obtain ⟨scalars, bound, unbound, evaluated⟩ := @Effect.MapBody.kernelAt_scope
    (bindPoint (p.mapAxes output out.shape) ((p.pointOf out.shape at_).map Nat.cast) {}) memory
      (p.mapBody src idx output source.shape out.shape) (Dict.sorted_ofList _) (by
      rintro ⟨c, access⟩ listed
      obtain ⟨i, dim, known, rfl, rfl⟩ := suits.mem_elements.mp listed
      obtain ⟨d, -, -, read⟩ := start known
      exact ⟨d, read⟩)
  rw [evaluated]
  generalize known : (p.mapBody src idx output source.shape out.shape).scope memory scalars
    (bindPoint (p.mapAxes output out.shape) ((p.pointOf out.shape at_).map Nat.cast) {}) = scope
  have starts_ {dim : Nat} (indexed : dim ∈ p.startMap) :
    ∃ d, scope.value? ("__gather_" ++ dim.repr) = some d ∧
      d.Stands (p.start out.shape.length index.shape starts at_ dim) := by
    have place := idxOf_lt_length_of_mem indexed
    have listed : p.startMap[p.startMap.idxOf dim]? = some dim := by
      rw [getElem?_eq_getElem place, getElem_idxOf place]
    obtain ⟨d, given, same, read⟩ := start listed
    have here := bound _ _ d (suits.mem_elements.mpr ⟨_, dim, listed, rfl, rfl⟩) read
    refine ⟨d, by simp only [← known, Effect.MapBody.scope, here, Option.some_or], ?_⟩
    rw [Plan.start, if_pos indexed, ← same]
    exact Datum.stands_self (whole d given)
  have axes {dim : Nat} (kept : dim ∈ p.keptDims) :
    scope.value? ("__i" ++ dim.repr) = some (.int (Int64.ofInt (p.offset at_ dim))) := by
    have foreign := unbound ("__i" ++ dim.repr) fun access listed => by
      obtain ⟨i, other, -, same, -⟩ := suits.mem_elements.mp listed
      have lists := congrArg String.toList same
      rw [String.toList_append, String.toList_append] at lists
      cases lists
    simp only [← known, Effect.MapBody.scope, foreign, suits.get?_axis output member kept,
      Option.none_or, Option.map_some]
  have subscript (dim : Nat) (below : dim ∈ List.range p.sizes.length) :
    ∃ d, (p.part dim).2.2.eval scope = .ok d ∧
      d.Stands (p.start out.shape.length index.shape starts at_ dim + p.offset at_ dim) :=
    eval_part (fun dim collapsed => (suits.collapses dim collapsed).1) (mem_range.mp below)
      (fun free => by rw [Plan.start, if_neg free])
      (fun collapsed => by rw [Plan.offset, if_pos collapsed]) starts_ axes
  choose! datum value stands using subscript
  have data : Expr.evalAll scope ((List.range p.sizes.length).map fun dim => (p.part dim).2.2) =
    .ok ((List.range p.sizes.length).map datum) :=
    Expr.evalAll_eq_ok (Shape.forall₂_map value)
  have places : ((List.range p.sizes.length).map datum).map (fun d => d.toInt64.toInt) =
    p.position out.shape.length index.shape starts at_ := by
    rw [map_map, position]
    refine map_congr_left fun dim below => ?_
    have inside : p.start out.shape.length index.shape starts at_ dim + p.offset at_
      dim ∈ p.position out.shape.length index.shape starts at_ :=
      mem_map_of_mem below
    obtain ⟨extent, listed, low, high⟩ := Outcome.forall₂_left within inside
    have few := smallSource extent listed
    exact (stands dim below).toInt64_toInt low (by omega)
  have natural : ((p.position out.shape.length index.shape starts at_).map Int.toNat).map Nat.cast =
      p.position out.shape.length index.shape starts at_ := by
    rw [map_map]
    refine (map_congr_left fun i listed => ?_).trans (map_id _)
    obtain ⟨extent, -, low, -⟩ := Outcome.forall₂_left within listed
    exact Int.toNat_of_nonneg low
  have inside : (p.position out.shape.length index.shape starts at_).map Int.toNat ∈ Shape.indices
    source.shape := by
    rw [Shape.mem_indices, forall₂_map_left_iff]
    exact within.imp fun i extent both => by omega
  have element := @windowElement_eq _ _ _ _ suits src idx output _ _ smallSource holds _ inside
  rw [natural] at element
  rw [mapBody, Expr.eval, data, ok_bind, places, ← known]
  exact element

theorem computes (fits : ∀ v ∈ [source, out], Shape.Fits v.shape)
    (room : (sizeProduct (p.mapExtents out.shape)).Succeeds)
    (holds : HoldsOperand memory src source values) (holds' : HoldsOperand memory idx index starts)
    (apart : src ≠ output ∧ idx ≠ output) (whole : ∀ d ∈ starts, Whole d)
    (within : ∀ at_ ∈ Shape.indices (arrayShape out),
      List.Forall₂ (fun (i : Int) (extent : Nat) => 0 ≤ i ∧ i < extent)
        (p.position out.shape.length index.shape starts at_) source.shape)
    {t : Tensor} (shape : t.shape = arrayShape out) :
    (p.mapBody src idx output source.shape out.shape).Computes memory {} t
      ((Shape.indices (p.mapExtents out.shape)).map (·.map Nat.cast))
      (fun point => p.indexOf out.shape (point.map Int.toNat)) fun point => .ok
        (Shape.pick source.shape values ((p.position out.shape.length index.shape starts
          (p.indexOf out.shape (point.map Int.toNat))).map Int.toNat)) := by
  have small (v : Var) (member : v ∈ [source, out]) : ∀ extent ∈ v.shape, extent < indexBound :=
    (fits v member).extents
  obtain ⟨count, counted⟩ := room
  have few : count * 24 < indexBound := by
    obtain ⟨count', counted', few⟩ := (fits out (by simp)).padded.counted
    have same : count = count' := by
      rw [eq_prod_of_sizeProduct counted, eq_prod_of_sizeProduct counted', mapExtents, arrayShape]
      by_cases scalar : out.shape = []
      · rw [if_pos scalar, if_pos (List.isEmpty_iff.mpr scalar)]
      · rw [if_neg scalar, if_neg (List.isEmpty_iff.not.mpr scalar), suits.orders.prod_along rfl]
    rwa [same]
  refine ⟨rfl, (suits.spans output).points_eq counted few rfl, fun between others point member =>
    ?_, fun point member => ?_, fun point member => ?_⟩
  all_goals
    obtain ⟨point, listed, rfl⟩ := mem_map.mp member
    obtain ⟨inside, back⟩ := suits.indexOf_mem listed
    rw [Shape.toNat_cast]
  · have value := @kernelAt_index _ _ _ _ suits _ _ output _ _ _ small
      (holds.congr (others src apart.1)) (holds'.congr (others idx apart.2)) whole _ inside
      (within _ inside)
    rwa [back] at value
  · have written := suits.written_eval output (small out (by simp)) inside
    rw [back] at written
    exact Access.elementIndex_eq written
  · rw [shape]
    exact inside

end Suits

-- A gather as a function of its source and its index array. Every array has room, and so have the
-- axes of the map in their order.
structure Equates (p : Plan) (e : Equation) (inputs : List Var) (source index out : Var) :
    Prop where
  primitive : e.primitive = "gather"
  pure : e.effectful = false
  reads : e.inputs = [.var source, .var index]
  outputs : e.outputs = [out]
  offsetDims : Params.sizes e.params "offset_dims" = .ok p.offsetDims
  collapsed : Params.sizes e.params "collapsed_slice_dims" = .ok p.collapsed
  startMap : Params.sizes e.params "start_index_map" = .ok p.startMap
  sizes : Params.sizes e.params "slice_sizes" = .ok p.sizes
  mode : Params.str e.params "mode" = .ok "promise_in_bounds"
  typed : source.elem = out.elem
  whole : out.elem.isFloat = false
  integer : index.elem.isInteger = true
  suits : p.Suits source.shape index.shape out.shape
  closed : ∀ v, v ∈ inputs ↔ v = source ∨ v = index
  nameable : Var.Nameable (inputs ++ [out])
  fits : ∀ v ∈ inputs ++ [out], Shape.Fits v.shape
  room : (sizeProduct (p.mapExtents out.shape)).Succeeds

namespace Equates

variable {p : Plan} {e : Equation} {inputs : List Var} {source index out : Var}
  (equates : p.Equates e inputs source index out)

include equates

theorem params_eq : Plan.ofParams e.params = .ok p := by
  simp only [Plan.ofParams, equates.offsetDims, equates.collapsed, equates.startMap, equates.sizes,
    equates.mode, ok_bind]
  rfl

theorem single : e.Single inputs out where
  pure := equates.pure
  outputs := equates.outputs
  closed v member := by
    rw [equates.reads] at member
    simpa [equates.closed] using member
  nameable := equates.nameable
  fits := equates.fits
  whole v member := by
    rcases mem_append.mp member with input | output
    · rcases (equates.closed v).mp input with rfl | rfl
      · rw [equates.typed, equates.whole]
      · exact ElemType.isFloat_of_isInteger equates.integer
    · cases mem_singleton.mp output
      exact equates.whole

end Equates

end Plan

-- A gather lowers.
theorem evaluate_gather {p : Plan} {e : Equation} {inputs : List Var} {source index out : Var}
    (equates : p.Equates e inputs source index out) :
    Outcome.Succeeds (lower .builtin (e.over inputs) none (.new 0)).1 ∧
      ∀ (specs : List ArgSpec) (args : List Argument) (given : Var → List Datum)
      (options : Options), describeCall args = .ok specs →
        List.Forall₂ ArgSpec.Declares specs inputs → (∀ a ∈ args, a.Regular) →
        List.Forall₂ (fun v a => Argument.elements a = .ok (given v)) inputs args →
        (∀ at_ ∈ Shape.indices (arrayShape out),
          List.Forall₂ (fun (i : Int) (extent : Nat) => 0 ≤ i ∧ i < extent)
          (p.position out.shape.length index.shape (given index) at_) source.shape) →
        ∃ r, (e.over inputs).evaluate specs options args = .ok [r] ∧ r.elem = out.elem ∧
        r.shape = arrayShape out ∧ r.values = .ok ((Shape.indices (arrayShape out)).map fun at_ =>
            Shape.pick source.shape (given source)
              ((p.position out.shape.length index.shape (given index) at_).map Int.toNat)) := by
  have first : source ∈ inputs := (equates.closed _).mpr (.inl rfl)
  have second : index ∈ inputs := (equates.closed _).mpr (.inr rfl)
  have single := equates.single
  obtain ⟨array, output, arrays, arranged, lowers, run⟩ :=
    single.evaluate (by rw [equates.primitive]; rfl)
  have noded := @Plan.Suits.nodes_eq _ _ _ _ equates.suits _ array output arrays equates.params_eq
    equates.reads equates.outputs
  refine ⟨lowers.mpr ⟨_, noded⟩,
    fun specs args given options described declares regular elements within => ?_⟩
  have compiled : Program.compileNodes
    [.map (p.mapNode (array source) (array index) output source.shape out.shape)] =
      .ok (Effect.map (p.mapBody (array source) (array index) output source.shape out.shape)) := by
    simp only [Program.compileNodes, equates.suits.prepare_eq, ok_bind, Outcome.pure_eq,
      Effect.andThen_skip]
  obtain ⟨memory, t, count, set, -, succeeds⟩ := run _ _ noded compiled
    (forall_mem_singleton.mpr (equates.suits.admitted arranged equates.fits ⟨first, second⟩)) specs
      args given options
    ⟨described, declares, regular, elements⟩
  have fits (v : Var) (listed : v ∈ [source, out]) : Shape.Fits v.shape := by
    refine equates.fits v ?_
    simp only [mem_cons, not_mem_nil, or_false] at listed
    rcases listed with rfl | rfl
    · exact mem_append_left _ first
    · exact mem_append_right _ mem_cons_self
  have data (v : Var) (member : v ∈ inputs) :=
    (set.holds v member).elements (single.whole v (mem_append_left _ member))
  have computes := equates.suits.computes fits equates.room (set.holds source first)
    (set.holds index second)
    ⟨(arranged.operand source first).1, (arranged.operand index second).1⟩
    (fun d member => Datum.whole_of_cast equates.integer ((data index second).typed d member))
      within set.shape
  have covered (at_ : List Nat) (inside : at_ ∈ Shape.indices (arrayShape out)) :
    at_ ∈ ((Shape.indices (p.mapExtents out.shape)).map
      (·.map (Nat.cast : Nat → Int))).map fun point => p.indexOf out.shape (point.map
        Int.toNat) := by
    obtain ⟨listed, back⟩ := equates.suits.pointOf_mem inside
    rw [map_map]
    exact mem_map.mpr ⟨_, listed, by rw [Function.comp_apply, Shape.toNat_cast, back]⟩
  obtain ⟨done, u, ran, others, found, laidOut, read⟩ := computes.succeeds set.dense set.blank (by
      rw [map_map]
      refine (Shape.nodup_indices _).map_on fun point listed point' listed' same => ?_
      simp only [Function.comp_apply, Shape.toNat_cast] at same
      rw [← (equates.suits.indexOf_mem listed).2, same, (equates.suits.indexOf_mem listed').2])
    (fun at_ => Shape.pick source.shape (given source)
      ((p.position out.shape.length index.shape (given index) at_).map Int.toNat)) fun point _ =>
      rfl
  refine succeeds done u _ ran others found laidOut (read.trans (congrArg _ ?_))
  rw [set.shape]
  refine map_congr_left fun at_ inside => ?_
  -- The element comes from an array of the type of the output, so storing it changes nothing.
  have place : (p.position out.shape.length index.shape (given index) at_).map
    Int.toNat ∈ Shape.indices source.shape := by
    rw [Shape.mem_indices, forall₂_map_left_iff]
    exact (within at_ inside).imp fun i extent both => by omega
  have same := (data source first).typed _ (Shape.pick_mem (data source first).counted place)
  rw [if_pos (covered at_ inside), set.elem, ElemType.recode_eq_cast equates.whole, ← equates.typed,
    same]

-- Two rows of three numbers, and the numbers of two of their columns.
def rows : Tensor :=
  ⟨.int8, [2, 3], [3, 1], .cpuHeap, #[10, 11, 12, 13, 14, 15]⟩

def columns : Tensor :=
  ⟨.int8, [2, 1], [1, 1], .cpuHeap, #[2, 0]⟩

theorem values_rows : rows.values = .ok [.int 10, .int 11, .int 12, .int 13, .int 14, .int 15] := by
  have dense : rows.Dense 6 := ⟨⟨rfl, by decide⟩, rfl, rfl⟩
  refine dense.values_eq_ok.mpr ⟨rfl, fun i d listed => ?_⟩
  rcases i with _ | _ | _ | _ | _ | _ | i <;> cases listed <;> rfl

theorem values_columns : columns.values = .ok [.int 2, .int 0] := by
  have dense : columns.Dense 2 := ⟨⟨rfl, by decide⟩, rfl, rfl⟩
  refine dense.values_eq_ok.mpr ⟨rfl, fun i d listed => ?_⟩
  rcases i with _ | _ | i <;> cases listed <;> rfl

def columnParams : Params :=
  .ofList [("offset_dims", .ints [0]), ("collapsed_slice_dims", .ints [1]),
    ("start_index_map", .ints [1]), ("slice_sizes", .ints [2, 1]),
    ("mode", .str "promise_in_bounds")]

-- The offset dimension stands before the batch dimension here.
theorem evaluate_gather_columns :
    let source : Var := ⟨0, .traced, [2, 3], .int8⟩
    let index : Var := ⟨1, .traced, [2, 1], .int8⟩
    let out : Var := ⟨2, .traced, [2, 2], .int8⟩
    let e : Equation := ⟨"gather", [.var source, .var index], [out], columnParams, false⟩
    let args : List Argument := [.tensor rows, .tensor columns]
    let specs : List ArgSpec :=
    [⟨[2, 3], .int8, some [3, 1], .cpuHeap⟩, ⟨[2, 1], .int8, some [1, 1], .cpuHeap⟩]
    Plan.Equates ⟨[0], [1], [1], [2, 1]⟩ e [source, index] source index out ∧
      ∃ r, (e.over [source, index]).evaluate specs (.all true) args = .ok [r] ∧ r.elem = .int8 ∧
      r.shape = [2, 2] ∧ r.values = .ok [.int 12, .int 10, .int 15, .int 13] := by
  intro source index out e args specs
  have fits (v : Var) (listed : v ∈ [source, index] ++ [out]) : Shape.Fits v.shape := by
    simp only [cons_append, nil_append, mem_cons, not_mem_nil, or_false] at listed
    rcases listed with rfl | rfl | rfl
    · exact ⟨⟨_, rfl⟩, by decide, 6, rfl, by decide⟩
    · exact ⟨⟨_, rfl⟩, by decide, 2, rfl, by decide⟩
    · exact ⟨⟨_, rfl⟩, by decide, 4, rfl, by decide⟩
  have suits : Plan.Suits ⟨[0], [1], [1], [2, 1]⟩ [2, 3] [2, 1] [2, 2] := by
    refine ⟨by decide, by decide, by decide, by decide, .cons (by decide) (.cons (by decide) .nil),
      fun dim other => ?_, rfl, rfl⟩
    rcases dim with _ | _ | dim
    · rfl
    · simp at other
    · rfl
  have equates : Plan.Equates ⟨[0], [1], [1], [2, 1]⟩ e [source, index] source index out :=
    ⟨rfl, rfl, rfl, rfl, rfl, rfl, rfl, rfl, rfl, rfl, rfl, rfl, suits, by simp, .traced (by decide)
      (by decide), fits, ⟨_, rfl⟩⟩
  let given (v : Var) : List Datum := if v.id = 0 then [.int 10, .int 11, .int 12, .int 13, .int 14,
    .int 15] else [.int 2, .int 0]
  obtain ⟨-, runs⟩ := evaluate_gather equates
  obtain ⟨r, evaluated, elem, shape, values⟩ :=
    runs specs args given (.all true) rfl (.cons ⟨rfl, rfl⟩ (.cons ⟨rfl, rfl⟩ .nil))
    (by simp [args, Argument.Regular, Tensor.rank, rows, columns])
      (.cons values_rows (.cons values_columns .nil)) (by decide +kernel)
  exact ⟨equates, r, evaluated, elem, shape, values.trans rfl⟩

-- The axes of the map follow the parameters. Where their extents have no product an empty result
-- can not be given either.
theorem evaluate_gather_without_room :
    let source : Var := ⟨0, .traced, [2 ^ 33, 0], .int64⟩
    let index : Var := ⟨1, .traced, [2 ^ 33, 0], .int64⟩
    let out : Var := ⟨2, .traced, [2 ^ 33, 2 ^ 33, 0], .int64⟩
    let params : Params := .ofList [("offset_dims", .ints [1, 2]),
      ("collapsed_slice_dims", .ints []), ("start_index_map", .ints []),
      ("slice_sizes", .ints [2 ^ 33, 0]), ("mode", .str "promise_in_bounds")]
    let e : Equation := ⟨"gather", [.var source, .var index], [out], params, false⟩
    let args : List Argument :=
      List.replicate 2 (.tensor ⟨.int64, [2 ^ 33, 0], [1, 1], .cpuHeap, #[]⟩)
    let specs : List ArgSpec := List.replicate 2 ⟨[2 ^ 33, 0], .int64, some [1, 1], .cpuHeap⟩
    Plan.Suits ⟨[1, 2], [], [], [2 ^ 33, 0]⟩ source.shape index.shape out.shape ∧
      Shape.indices (arrayShape out) = [] ∧
      describeCall args = .ok specs ∧
      Outcome.Succeeds (lower .builtin (e.over [source, index]) none (.new 0)).1 ∧
      ¬ ((e.over [source, index]).evaluate specs (.all false) args).Succeeds := by
  intro source index out params e args specs
  have lowers : Outcome.Succeeds (lower .builtin (e.over [source, index]) none (.new 0)).1 := by
    decide +kernel
  have fails : ¬ ((e.over [source, index]).evaluate specs (.all false) args).Succeeds := by
    decide +kernel
  have empty : Shape.indices (arrayShape out) = [] := by decide +kernel
  have suits : Plan.Suits ⟨[1, 2], [], [], [2 ^ 33, 0]⟩ source.shape index.shape out.shape :=
    ⟨by decide, by decide, by decide, by decide, .cons (by decide) (.cons (by decide) .nil),
      fun dim _ => rfl, rfl, rfl⟩
  exact ⟨suits, empty, rfl, lowers, fails⟩

end Gather

end TraceFlow
