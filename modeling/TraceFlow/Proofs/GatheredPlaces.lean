import Mathlib.Data.List.GetD
import TraceFlow.Proofs.IntegerOperations
import TraceFlow.Proofs.MapAxes

set_option autoImplicit false

namespace TraceFlow

open List

variable {index : List Nat}

namespace Shape

def along (dims : List Nat) (index : List Nat) : List Nat :=
  dims.map fun dim => index.getD dim 0

-- The index whose coordinates along the dimensions are given.
def acrossOf (rank : Nat) (dims : List Nat) (point : List Nat) : List Nat :=
  (List.range rank).map fun dim => point.getD (dims.idxOf dim) 0

-- Dimensions that are all those of a rank, in some order.
structure Orders (rank : Nat) (dims : List Nat) : Prop where
  distinct : dims.Nodup
  member : ∀ dim, dim ∈ dims ↔ dim < rank

theorem forall₂_map {α β γ : Type} {related : β → γ → Prop} {f : α → β} {g : α → γ} {list : List α}
    (each : ∀ a ∈ list, related (f a) (g a)) : List.Forall₂ related (list.map f) (list.map g) :=
  forall₂_map_left_iff.mpr (forall₂_map_right_iff.mpr (forall₂_same.mpr each))

theorem getD_lt {shape : List Nat} (inside : List.Forall₂ (· < ·) index shape) {dim : Nat}
    (small : dim < shape.length) : index.getD dim 0 < shape.getD dim 0 := by
  have small' : dim < index.length := inside.length_eq ▸ small
  rw [getD_eq_getElem _ _ small, getD_eq_getElem _ _ small']
  exact inside.get small' small

theorem eq_map_getD (shape : List Nat) :
    shape = (List.range shape.length).map fun dim => shape.getD dim 0 := by
  refine ext_getElem (by simp) fun i here there => ?_
  rw [getElem_map, getElem_range, getD_eq_getElem _ _ here]

namespace Orders

variable {rank : Nat} {dims : List Nat} (orders : Orders rank dims)

variable {index point shape : List Nat}

include orders

theorem length_eq : dims.length = rank := by
  have same : dims.Perm (List.range rank) := (perm_ext_iff_of_nodup orders.distinct nodup_range).mpr
    fun dim => by
    rw [orders.member, mem_range]
  simpa using same.length_eq

theorem acrossOf_along (counted : index.length = rank) : acrossOf rank dims
    (along dims index) = index := by
  conv_rhs => rw [eq_map_getD index, counted]
  refine map_congr_left fun dim small => ?_
  have listed := idxOf_lt_length_of_mem ((orders.member dim).mpr (mem_range.mp small))
  rw [along, getD_eq_getElem _ _ (by simpa using listed), getElem_map, getElem_idxOf listed]

theorem along_acrossOf (counted : point.length = rank) :
    along dims (acrossOf rank dims point) = point := by
  refine ext_getElem (by simp [along, orders.length_eq, counted]) fun i here there => ?_
  have small : i < dims.length := by simpa [along] using here
  have below : dims[i] < rank := (orders.member _).mp (getElem_mem small)
  simp only [along, acrossOf, getElem_map]
  rw [getD_eq_getElem _ _ (by simpa using below), getElem_map, getElem_range,
    orders.distinct.idxOf_getElem,
    getD_eq_getElem _ _ there]

theorem along_mem (counted : shape.length = rank) (member : index ∈ indices shape) :
    along dims index ∈ indices (along dims shape) := by
  rw [mem_indices] at member ⊢
  refine Shape.forall₂_map fun dim listed => ?_
  exact getD_lt member (counted ▸ (orders.member dim).mp listed)

theorem acrossOf_mem (counted : shape.length = rank) (member : point ∈ indices (along dims shape)) :
    acrossOf rank dims point ∈ indices shape := by
  rw [mem_indices] at member ⊢
  conv_rhs => rw [eq_map_getD shape, counted]
  refine Shape.forall₂_map fun dim small => ?_
  have listed := idxOf_lt_length_of_mem ((orders.member dim).mpr (mem_range.mp small))
  have below := getD_lt member (show dims.idxOf dim < _ by simpa [along] using listed)
  rwa [along, getD_eq_getElem (dims.map _) _ (by simpa using listed), getElem_map,
    getElem_idxOf listed] at below

theorem prod_along (counted : shape.length = rank) : (along dims shape).prod = shape.prod := by
  have same : dims.Perm (List.range rank) := (perm_ext_iff_of_nodup orders.distinct nodup_range).mpr
    fun dim => by
    rw [orders.member, mem_range]
  conv_rhs => rw [eq_map_getD shape, counted]
  exact (same.map _).prod_eq

end Orders

end Shape

namespace Gather

open Kernel
open Effect.MapBody (bindPoint)

namespace Plan

section

variable (p : Plan)

def order (rank : Nat) : List Nat :=
  p.batchDims rank ++ p.offsetDims

def params (output : String) (rank : Nat) : List String :=
  (p.batchDims rank).map (patchParam output) ++ p.keptDims.map fun dim => "__i" ++ dim.repr

end

theorem subscripts_eq {p : Plan} {size extent : Nat → Nat}
    (whole : ∀ dim, dim ∉ p.startMap → size dim = extent dim)
    (collapses : ∀ dim ∈ p.collapsed, dim ∈ p.startMap) (dim count : Nat) :
    p.subscripts dim ((List.range' dim count).map fun dim => (size dim, extent dim)) =
      .ok (((List.range' dim count).filter fun dim => dim ∉ p.collapsed).map fun dim =>
        Elementwise.axis dim (size dim),
        (List.range' dim count).map fun dim => (p.part dim).1) := by
  induction count generalizing dim with
  | zero => rfl
  | succ count ih =>
    rw [range'_succ, map_cons, map_cons, subscripts, ih]
    by_cases indexed : dim ∈ p.startMap
    · rw [if_neg (not_not.mpr indexed), ok_bind]
      dsimp only
      by_cases collapsed : dim ∈ p.collapsed
      · have text : (p.part dim).1 = "__gather_" ++ dim.repr := by simp [part, indexed, collapsed]
        rw [if_pos collapsed, filter_cons_of_neg (by simpa using collapsed), text]
        rfl
      · have text : (p.part dim).1 = "__gather_" ++ dim.repr ++ " + " ++ ("__i" ++ dim.repr) := by
          simp [part, indexed, collapsed]
        rw [if_neg collapsed, filter_cons_of_pos (by simpa using collapsed), text]
        rfl
    · have kept : dim ∉ p.collapsed := fun member => indexed (collapses dim member)
      have text : (p.part dim).1 = "__i" ++ dim.repr := by simp [part, indexed]
      rw [if_pos indexed, if_neg (not_not.mpr (whole dim indexed)),
        filter_cons_of_pos (by simpa using kept), text]
      rfl

def start (p : Plan) (rank : Nat) (indexShape : List Nat) (starts : List Datum) (index : List Nat)
    (dim : Nat) : Int :=
  if dim ∈ p.startMap then (Shape.pick indexShape starts (Shape.along (p.batchDims rank) index ++
    [p.startMap.idxOf dim])).toInt else 0

def offset (p : Plan) (index : List Nat) (dim : Nat) : Nat :=
  if dim ∈ p.collapsed then 0 else index.getD (p.offsetDims.getD (p.keptDims.idxOf dim) 0) 0

def position (p : Plan) (rank : Nat) (indexShape : List Nat) (starts : List Datum)
    (index : List Nat) : List Int :=
  (List.range p.sizes.length).map fun dim => p.start rank indexShape starts index dim + p.offset
    index dim

structure Suits (p : Plan) (source index output : List Nat) : Prop where
  ranked : source ≠ []
  increasing : p.offsetDims.Pairwise (· < ·)
  apart : p.startMap.Nodup
  collapses : ∀ dim ∈ p.collapsed, dim ∈ p.startMap ∧ p.sizes[dim]? = some 1
  small : List.Forall₂ (· ≤ ·) p.sizes source
  whole : ∀ dim, dim ∉ p.startMap → p.sizes[dim]? = source[dim]?
  batch : index.map some = (p.batchDims output.length).map (output[·]?) ++ [some p.startMap.length]
  patch : p.offsetDims.map (output[·]?) = p.keptDims.map (p.sizes[·]?)

namespace Suits

variable {p : Plan} {source index output : List Nat} (suits : p.Suits source index output)

variable {dim : Nat}

include suits

theorem index_eq : index = Shape.along (p.batchDims output.length) output ++
    [p.startMap.length] := by
  have same := congrArg (List.map fun extent? : Option Nat => extent?.getD 0) suits.batch
  simpa [Shape.along, Function.comp_def, getD_eq_getElem?_getD] using same

theorem along_offsetDims : Shape.along p.offsetDims output = p.keptDims.map fun dim =>
    p.sizes.getD dim 0 := by
  have same := congrArg (List.map fun extent? : Option Nat => extent?.getD 0) suits.patch
  simpa [Shape.along, Function.comp_def, getD_eq_getElem?_getD] using same

theorem length_offsetDims : p.offsetDims.length = p.keptDims.length := by
  simpa using congrArg List.length suits.patch

theorem offset_lt (member : dim ∈ p.offsetDims) : dim < output.length := by
  have listed : output[dim]? ∈ p.keptDims.map (p.sizes[·]?) := suits.patch ▸ mem_map_of_mem member
  obtain ⟨kept, small, same⟩ := mem_map.mp listed
  have below : kept < p.sizes.length := mem_range.mp (mem_filter.mp small).1
  rw [getElem?_eq_getElem below] at same
  exact List.getElem?_eq_some_iff.mp same.symm |>.1

theorem orders : Shape.Orders output.length (p.order output.length) where
  distinct := by
    refine nodup_append.mpr ⟨nodup_range.filter _, suits.increasing.imp fun below => Nat.ne_of_lt
      below, ?_⟩
    rintro dim batch _ offset rfl
    simpa [offset] using (mem_filter.mp batch).2
  member dim := by
    rw [order, mem_append, batchDims, mem_filter, mem_range]
    constructor
    · rintro (⟨small, -⟩ | offset)
      · exact small
      · exact suits.offset_lt offset
    · intro small
      by_cases offset : dim ∈ p.offsetDims
      · exact .inr offset
      · exact .inl ⟨small, by simpa using offset⟩

theorem length_params (name : String) : (p.params name output.length).length = output.length := by
  have length := suits.orders.length_eq
  rw [order, length_append, suits.length_offsetDims] at length
  simpa [params] using length

theorem idxOf_lt (below : dim < output.length) (name : String) : (p.order output.length).idxOf dim <
    (p.params name output.length).length :=
  Nat.lt_of_lt_of_eq (idxOf_lt_length_of_mem ((suits.orders.member dim).mpr below))
    (suits.orders.length_eq.trans (suits.length_params name).symm)

theorem getElem?_along (below : dim < output.length) (index : List Nat) :
    (Shape.along (p.order output.length) index)[(p.order output.length).idxOf dim]? = some
      (index.getD dim 0) := by
  have place := idxOf_lt_length_of_mem ((suits.orders.member dim).mpr below)
  rw [Shape.along, getElem?_map, getElem?_eq_getElem place, getElem_idxOf place]
  rfl

omit suits in
theorem getElem?_params_batch {rank : Nat} (batch : dim ∈ p.batchDims rank) (name : String) :
    (p.params name rank)[(p.order rank).idxOf dim]? = some (patchParam name dim) := by
  have small := idxOf_lt_length_of_mem batch
  rw [params, order, idxOf_append_of_mem batch, getElem?_append_left (by simpa using small),
    getElem?_map,
    getElem?_eq_getElem small, getElem_idxOf small]
  rfl

theorem getElem?_params_offset (offset : dim ∈ p.offsetDims) (name : String) :
    (p.params name output.length)[(p.order output.length).idxOf dim]? = some
      ("__i" ++ (p.keptDims.getD (p.offsetDims.idxOf dim) 0).repr) := by
  have free : dim ∉ p.batchDims output.length := by simp [batchDims, offset]
  have small : p.offsetDims.idxOf dim < p.keptDims.length :=
    suits.length_offsetDims ▸ idxOf_lt_length_of_mem offset
  rw [params, order, idxOf_append_of_notMem free, getElem?_append_right (by simp)]
  simp [small]

theorem filter_batchDims : (List.range output.length).filter
    (fun dim => dim ∉ p.batchDims output.length) = p.offsetDims := by
  refine @List.Perm.eq_of_pairwise _ (· < ·) _ _ ?_ (pairwise_lt_range.filter _) suits.increasing ?_
  · intro a b _ _ less greater
    omega
  · refine (perm_ext_iff_of_nodup (nodup_range.filter _) (suits.increasing.imp fun below =>
      Nat.ne_of_lt below)).mpr fun dim => ?_
    simp only [batchDims, mem_filter, mem_range, decide_not, Bool.not_eq_true',
      decide_eq_false_iff_not, not_and, not_not,
      decide_eq_true_eq]
    exact ⟨fun ⟨small, follows⟩ => follows small, fun offset => ⟨suits.offset_lt offset,
      fun _ => offset⟩⟩

end Suits

end Plan

namespace Plan

-- The map runs over the output, its dimensions in another order; an output without dimensions has
-- one point.
def mapAxes (p : Plan) (output : String) (shape : List Nat) : List Axis :=
  if shape = [] then [Elementwise.scalarAxis]
  else List.zipWith (fun param extent => ⟨param, 0, signedWord extent⟩)
    (p.params output shape.length) (Shape.along (p.order shape.length) shape)

def written (p : Plan) (output : String) (rank : Nat) : List Index :=
  if rank = 0 then [.constant 0]
  else (List.range rank).map fun dim => .symbol
    ((p.params output rank).getD ((p.order rank).idxOf dim) "")

def mapNode (p : Plan) (source index output : String) (sourceShape outputShape : List Nat) :
    MapNode :=
  { label := "_gather_map_" ++ output, axes := p.mapAxes output outputShape,
    inputs := reads source index sourceShape ((p.batchDims outputShape.length).map
      (patchParam output)) p.startMap, dynamic := {},
    code := "__out = __arr" ++ Text.bracketed ((List.range p.sizes.length).map fun dim =>
      (p.part dim).1),
    outputs := Dict.ofList [("__out", .element output (p.written output outputShape.length))] }

namespace Suits

variable {p : Plan} {sourceShape indexShape outputShape : List Nat}
  (suits : p.Suits sourceShape indexShape outputShape)

include suits

theorem check_eq : p.check sourceShape indexShape outputShape = .ok () := by
  have last : indexShape.getLast? = some p.startMap.length := by
    rw [suits.index_eq, getLast?_concat]
  have rank : (p.batchDims outputShape.length).length + 1 = indexShape.length := by
    conv_rhs => rw [suits.index_eq]
    simp [Shape.along]
  rw [check, if_neg (not_not.mpr last), if_neg (not_not.mpr suits.small.length_eq)]
  dsimp only
  rw [if_neg (not_not.mpr rank), if_neg (not_not.mpr suits.length_offsetDims.symm)]
  rfl

theorem subscripts_eq : p.subscripts 0 (p.sizes.zip sourceShape) =
    .ok (p.keptDims.map fun dim => Elementwise.axis dim (p.sizes.getD dim 0),
      (List.range p.sizes.length).map fun dim => (p.part dim).1) := by
  have pairs : p.sizes.zip sourceShape = (List.range' 0 p.sizes.length).map fun dim =>
    (p.sizes.getD dim 0, sourceShape.getD dim 0) := by
    have counted := suits.small.length_eq
    refine ext_getElem (by simp [counted]) fun i here there => ?_
    have inside : i < p.sizes.length := by simpa using there
    simp [inside, (counted ▸ inside : i < sourceShape.length)]
  rw [pairs, Plan.subscripts_eq (fun dim free => ?_) fun dim collapsed =>
    (suits.collapses dim collapsed).1, ← range_eq_range']
  · rfl
  · rw [getD_eq_getElem?_getD, getD_eq_getElem?_getD, suits.whole dim free]

theorem batchAxes_append (output : String) : batchAxes p output outputShape.length indexShape ++
    (p.keptDims.map fun dim => Elementwise.axis dim (p.sizes.getD dim 0)) =
      List.zipWith (fun param extent => (⟨param, 0, signedWord extent⟩ : Axis))
        (p.params output outputShape.length)
        (Shape.along (p.order outputShape.length) outputShape) := by
  have batch : ((p.batchDims outputShape.length).map (patchParam output)).zip indexShape =
      ((p.batchDims outputShape.length).map (patchParam output)).zip
        (Shape.along (p.batchDims outputShape.length) outputShape) := by
    conv_lhs => rw [suits.index_eq, ← append_nil (List.map _ _)]
    rw [zip_append (by simp [Shape.along]), zip_nil_left, append_nil]
  have sliced : Shape.along (p.order outputShape.length) outputShape =
      Shape.along (p.batchDims outputShape.length) outputShape ++ p.keptDims.map fun dim =>
      p.sizes.getD dim 0 := by
    rw [← suits.along_offsetDims, order, Shape.along, map_append]
    rfl
  rw [batchAxes, batch, sliced, params, zipWith_append (by simp [Shape.along]), zipWith_map,
    zipWith_self, map_zip_eq_zipWith]
  rfl

theorem target_eq (output : String) : target output (p.batchDims outputShape.length)
    (List.range outputShape.length) p.keptDims = .ok ((List.range outputShape.length).map fun dim =>
      .symbol ((p.params output outputShape.length).getD ((p.order outputShape.length).idxOf dim)
        "")) := by
  refine (target_eq_ok nodup_range).mpr
    ⟨by rw [suits.filter_batchDims, suits.length_offsetDims], ?_⟩
  rw [suits.filter_batchDims]
  refine map_congr_left fun dim listed => congrArg Index.symbol ?_
  rw [getD_eq_getElem?_getD]
  by_cases batch : dim ∈ p.batchDims outputShape.length
  · rw [if_pos batch, getElem?_params_batch batch]
    rfl
  · have known := (suits.orders.member dim).mpr (mem_range.mp listed)
    rw [if_neg batch, suits.getElem?_params_offset ((mem_append.mp known).resolve_left batch)]
    rfl

theorem node_eq (source index output : String) :
    node p source index output sourceShape indexShape outputShape = .ok
      (p.mapNode source index output sourceShape outputShape) := by
  rw [node, suits.check_eq, ok_bind]
  dsimp only
  rw [suits.subscripts_eq, ok_bind]
  dsimp only
  rw [suits.target_eq, ok_bind]
  have axes := suits.batchAxes_append output
  rw [batchAxes] at axes
  have counted : (List.zipWith (fun param extent => (⟨param, 0, signedWord extent⟩ : Axis))
    (p.params output outputShape.length)
      (Shape.along (p.order outputShape.length) outputShape)).length = outputShape.length := by
    simp [Shape.along, suits.length_params, suits.orders.length_eq]
  rw [axes, if_neg (not_not.mpr counted), mapNode, mapAxes, written]
  by_cases scalar : outputShape = []
  · subst scalar
    rw [length_eq_zero_iff.mp counted]
    rfl
  · have some : outputShape.length ≠ 0 := length_eq_zero_iff.not.mpr scalar
    have full (list : List Axis) (counted : list.length = outputShape.length) :
      ¬ list.isEmpty = true := by
      rintro empty
      rw [List.isEmpty_iff.mp empty] at counted
      exact some counted.symm
    rw [if_neg (full _ counted), if_neg scalar, if_neg some]
    rfl

end Suits

theorem nodup_params (p : Plan) (output : String) (rank : Nat) : (p.params output rank).Nodup := by
  have apart : Function.Injective (patchParam output) := fun _ _ => patchParam_inj.mp
  have axes : Function.Injective fun dim : Nat => "__i" ++ dim.repr :=
    fun _ _ same => Text.repr_inj.mp ((String.append_right_inj _).mp same)
  refine nodup_append.mpr ⟨(nodup_range.filter _).map apart, (nodup_range.filter _).map axes, ?_⟩
  rintro _ batch _ kept rfl
  obtain ⟨dim, -, same⟩ := mem_map.mp batch
  obtain ⟨other, -, rfl⟩ := mem_map.mp kept
  -- A parameter over a batch dimension has a digit behind an `r`.
  exact marked_patchParam output dim (same ▸ (Closed.append (by decide) (closed_repr other)).1)

section

variable (p : Plan)

def mapParams (output : String) (shape : List Nat) : List String :=
  if shape = [] then [Elementwise.scalarAxis.param] else p.params output shape.length

def mapExtents (shape : List Nat) : List Nat :=
  if shape = [] then [1] else Shape.along (p.order shape.length) shape

def pointOf (shape index : List Nat) : List Nat :=
  if shape = [] then index else Shape.along (p.order shape.length) index

def indexOf (shape point : List Nat) : List Nat :=
  if shape = [] then point else Shape.acrossOf shape.length (p.order shape.length) point

end

namespace Suits

variable {p : Plan} {sourceShape indexShape : List Nat} {out : Var}
  (suits : p.Suits sourceShape indexShape out.shape)

variable {i dim : Nat}

include suits

theorem spans (output : String) : Axis.Spans (p.mapAxes output out.shape)
    (p.mapParams output out.shape) (p.mapExtents out.shape) := by
  unfold mapAxes mapParams mapExtents
  split
  · exact ⟨rfl, rfl, nodup_singleton _⟩
  · have counted : (p.params output out.shape.length).length =
      (Shape.along (p.order out.shape.length) out.shape).length := by
      rw [suits.length_params, Shape.along, length_map, suits.orders.length_eq]
    have paired : List.zipWith (fun param extent => (⟨param, 0, signedWord extent⟩ : Axis))
      (p.params output out.shape.length)
        (Shape.along (p.order out.shape.length) out.shape) = ((p.params output out.shape.length).zip
          (Shape.along (p.order out.shape.length) out.shape)).map
          fun pair => ⟨pair.1, 0, signedWord pair.2⟩ := by
      rw [map_zip_eq_zipWith]
      rfl
    rw [paired]
    refine ⟨?_, ?_, p.nodup_params output out.shape.length⟩
    · rw [map_map]
      exact map_fst_zip (Nat.le_of_eq counted)
    · conv_rhs => rw [← map_snd_zip (Nat.le_of_eq counted.symm)]
      simp only [map_map, Function.comp_def]

theorem extents_lt (small : ∀ extent ∈ out.shape, extent < indexBound) :
    ∀ extent ∈ p.mapExtents out.shape, extent < indexBound := by
  rw [mapExtents]
  split
  · decide
  · intro extent member
    obtain ⟨dim, listed, rfl⟩ := mem_map.mp member
    have below := (suits.orders.member dim).mp listed
    rw [getD_eq_getElem _ _ below]
    exact small _ (getElem_mem below)

theorem pointOf_mem (member : index ∈ Shape.indices (Builder.arrayShape out)) :
    p.pointOf out.shape index ∈ Shape.indices (p.mapExtents out.shape) ∧ p.indexOf out.shape
      (p.pointOf out.shape index) = index := by
  unfold pointOf mapExtents indexOf
  by_cases scalar : out.shape = []
  · rw [Builder.arrayShape, if_pos (List.isEmpty_iff.mpr scalar)] at member
    rw [if_pos scalar, if_pos scalar, if_pos scalar]
    exact ⟨member, rfl⟩
  · rw [Builder.arrayShape, if_neg (List.isEmpty_iff.not.mpr scalar)] at member
    rw [if_neg scalar, if_neg scalar, if_neg scalar]
    exact ⟨suits.orders.along_mem rfl member,
      suits.orders.acrossOf_along (Shape.mem_indices.mp member).length_eq⟩

theorem indexOf_mem {point : List Nat} (member : point ∈ Shape.indices (p.mapExtents out.shape)) :
    p.indexOf out.shape point ∈ Shape.indices (Builder.arrayShape out) ∧ p.pointOf out.shape
      (p.indexOf out.shape point) = point := by
  unfold mapExtents at member
  unfold pointOf indexOf
  by_cases scalar : out.shape = []
  · rw [if_pos scalar] at member
    rw [Builder.arrayShape, if_pos (List.isEmpty_iff.mpr scalar), if_pos scalar, if_pos scalar]
    exact ⟨member, rfl⟩
  · rw [if_neg scalar] at member
    rw [Builder.arrayShape, if_neg (List.isEmpty_iff.not.mpr scalar), if_neg scalar, if_neg scalar]
    refine ⟨suits.orders.acrossOf_mem rfl member, suits.orders.along_acrossOf ?_⟩
    rw [(Shape.mem_indices.mp member).length_eq, Shape.along, length_map, suits.orders.length_eq]

theorem get?_param (output : String) (member : index ∈ Shape.indices (Builder.arrayShape out))
    {x : Nat} {param : String} (named : (p.params output out.shape.length)[i]? = some param)
    (coordinate : (Shape.along (p.order out.shape.length) index)[i]? = some x) :
    (bindPoint (p.mapAxes output out.shape) ((p.pointOf out.shape index).map Nat.cast) {}).get?
      param = some (x : Int) := by
  have ranked : out.shape ≠ [] := by
    intro scalar
    have none := suits.length_params output
    rw [scalar] at none named
    rw [length_eq_zero_iff.mp none] at named
    cases named
  refine (suits.spans output).get?_bindPoint
    (Shape.mem_indices.mp (suits.pointOf_mem member).1).length_eq (i := i) ?_ ?_
  · rwa [mapParams, if_neg ranked]
  · rwa [pointOf, if_neg ranked]

omit suits in
theorem coordinate_lt (small : ∀ extent ∈ out.shape, extent < indexBound)
    (member : index ∈ Shape.indices (Builder.arrayShape out))
    (below : dim < out.shape.length) : index.getD dim 0 < indexBound := by
  have ranked : out.shape ≠ [] := ne_nil_of_length_pos (Nat.zero_lt_of_lt below)
  rw [Builder.arrayShape, if_neg (List.isEmpty_iff.not.mpr ranked), Shape.mem_indices] at member
  refine Nat.lt_trans (Shape.getD_lt member below) (small _ ?_)
  rw [getD_eq_getElem _ _ below]
  exact getElem_mem below

theorem written_eval (output : String) (small : ∀ extent ∈ out.shape, extent < indexBound)
    (member : index ∈ Shape.indices (Builder.arrayShape out)) : List.Forall₂
      (fun (part : Index) i => part.eval
        (bindPoint (p.mapAxes output out.shape) ((p.pointOf out.shape index).map Nat.cast)
          {}).get? = .ok (some i)) (p.written output out.shape.length) (index.map Nat.cast) := by
  have inside := member
  rw [Builder.arrayShape] at inside
  by_cases scalar : out.shape = []
  · rw [if_pos (List.isEmpty_iff.mpr scalar)] at inside
    cases mem_singleton.mp inside
    rw [written, scalar]
    exact .cons rfl .nil
  · rw [if_neg (List.isEmpty_iff.not.mpr scalar), Shape.mem_indices] at inside
    rw [written, if_neg (length_eq_zero_iff.not.mpr scalar)]
    conv_rhs => rw [Shape.eq_map_getD index, inside.length_eq]
    rw [map_map]
    refine Shape.forall₂_map fun dim listed => ?_
    have below := mem_range.mp listed
    have place := suits.idxOf_lt below output
    refine Index.eval_symbol (suits.get?_param output member ?_ (suits.getElem?_along below index))
      (coordinate_lt small member below)
    rw [getD_eq_getElem _ _ place, getElem?_eq_getElem place]

theorem written_within (output : String) :
    List.Forall₂ (Index.Within (p.mapParams output out.shape)) (p.written output out.shape.length)
    (Builder.arrayShape out) := by
  by_cases scalar : out.shape = []
  · rw [written, Builder.arrayShape, scalar]
    exact .cons (.inr ⟨0, rfl, by decide, by decide⟩) .nil
  · rw [written, if_neg (length_eq_zero_iff.not.mpr scalar), Builder.arrayShape,
      if_neg (List.isEmpty_iff.not.mpr scalar)]
    conv_rhs => rw [Shape.eq_map_getD out.shape]
    refine Shape.forall₂_map fun dim listed => Index.within_symbol ?_
    have place := suits.idxOf_lt (mem_range.mp listed) output
    rw [mapParams, if_neg scalar, getD_eq_getElem _ _ place]
    exact getElem_mem place

theorem start_within (output : String) (listed : p.startMap[i]? = some dim)
    (small : ∀ extent ∈ indexShape, extent < indexBound) :
    List.Forall₂ (Index.Within (p.mapParams output out.shape))
      (((p.batchDims out.shape.length).map (patchParam output)).map Index.symbol ++ [.constant i])
        indexShape := by
  have last : p.startMap.length ∈ indexShape := by
    rw [suits.index_eq]
    exact mem_append_right _ mem_cons_self
  conv_rhs => rw [suits.index_eq]
  refine rel_append ?_ (.cons (.inr ⟨i, rfl, (List.getElem?_eq_some_iff.mp listed).1, small _ last⟩)
    .nil)
  rw [map_map]
  refine Shape.forall₂_map fun batch member => Index.within_symbol ?_
  have ranked : out.shape ≠ [] := by
    intro scalar
    rw [scalar] at member
    cases member
  rw [mapParams, if_neg ranked]
  exact mem_append_left _ (mem_map_of_mem member)

theorem batch_mem (member : index ∈ Shape.indices (Builder.arrayShape out))
    (listed : p.startMap[i]? = some dim) :
    Shape.along (p.batchDims out.shape.length) index ++ [i] ∈ Shape.indices indexShape := by
  rw [Shape.mem_indices] at member ⊢
  conv_rhs => rw [suits.index_eq]
  refine rel_append ?_ (.cons (List.getElem?_eq_some_iff.mp listed).1 .nil)
  refine Shape.forall₂_map fun batch known => ?_
  have below : batch < out.shape.length := mem_range.mp (mem_filter.mp known).1
  have ranked : out.shape ≠ [] := ne_nil_of_length_pos (Nat.zero_lt_of_lt below)
  rw [Builder.arrayShape, if_neg (List.isEmpty_iff.not.mpr ranked)] at member
  exact Shape.getD_lt member below

theorem start_eval (output : String) (small : ∀ extent ∈ out.shape, extent < indexBound)
    (member : index ∈ Shape.indices (Builder.arrayShape out)) (i : Nat) : List.Forall₂
      (fun (part : Index) i => part.eval
        (bindPoint (p.mapAxes output out.shape) ((p.pointOf out.shape index).map Nat.cast)
          {}).get? = .ok (some i))
      (((p.batchDims out.shape.length).map (patchParam output)).map Index.symbol ++ [.constant i])
      ((Shape.along (p.batchDims out.shape.length) index ++ [i]).map Nat.cast) := by
  rw [map_append]
  refine rel_append ?_ (.cons rfl .nil)
  rw [map_map, Shape.along, map_map]
  refine Shape.forall₂_map fun batch known => ?_
  have below : batch < out.shape.length := mem_range.mp (mem_filter.mp known).1
  refine Index.eval_symbol (suits.get?_param output member (getElem?_params_batch known output)
    (suits.getElem?_along below index)) ?_
  exact coordinate_lt small member below

theorem get?_axis (output : String) (member : index ∈ Shape.indices (Builder.arrayShape out))
    (kept : dim ∈ p.keptDims) :
    (bindPoint (p.mapAxes output out.shape) ((p.pointOf out.shape index).map Nat.cast) {}).get?
      ("__i" ++ dim.repr) = some (p.offset index dim : Int) := by
  have place := idxOf_lt_length_of_mem kept
  have place' : p.keptDims.idxOf dim < p.offsetDims.length := suits.length_offsetDims ▸ place
  have offset : p.offsetDims[p.keptDims.idxOf dim] ∈ p.offsetDims := getElem_mem place'
  have free : dim ∉ p.collapsed := by simpa using (mem_filter.mp kept).2
  have distinct : p.offsetDims.Nodup := suits.increasing.imp fun below => Nat.ne_of_lt below
  have named := suits.getElem?_params_offset offset output
  rw [distinct.idxOf_getElem, getD_eq_getElem _ _ place, getElem_idxOf place] at named
  rw [Plan.offset, if_neg free, getD_eq_getElem p.offsetDims _ place']
  exact suits.get?_param output member named (suits.getElem?_along (suits.offset_lt offset) index)

end Suits

end Plan

end Gather

end TraceFlow
