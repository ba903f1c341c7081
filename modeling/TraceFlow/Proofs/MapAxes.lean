import TraceFlow.Proofs.CallingConvention
import TraceFlow.Proofs.FittingShapes
import TraceFlow.Proofs.MapRuns
import TraceFlow.Proofs.SwappedMaps

set_option autoImplicit false

namespace TraceFlow

open List
open Effect.MapBody (bindPoint)

variable {index shape : List Nat} {name : String} {parts : List Index}

variable {values : List Datum} {count : Nat} {param : String} {params : List String}
  {extents : List Nat} {symbols : Symbols} {lookup : String → Option Int}
  {memory : Memory}

theorem Shape.toNat_cast (index : List Nat) :
    (index.map Nat.cast : List Int).map Int.toNat = index := by
  rw [map_map]
  exact map_id'' (fun i => Int.toNat_natCast i) index

structure Axis.Spans (axes : List Axis) (params : List String) (extents : List Nat) : Prop where
  params_eq : axes.map Axis.param = params
  ranges : axes.map (fun axis => (axis.low, axis.high)) = extents.map fun extent =>
    (0, signedWord extent)
  distinct : params.Nodup

namespace Axis.Spans

variable {axes : List Axis} {params : List String} {extents : List Nat}

theorem counted (spans : Spans axes params extents) : axes.length = extents.length := by
  simpa using congrArg List.length spans.ranges

theorem points_eq (spans : Spans axes params extents) (product : sizeProduct extents = .ok count)
    (few : count * 24 < indexBound)
    {body : Effect.MapBody} (same : body.node.axes = axes) : body.points = .ok
      ((Shape.indices extents).map (·.map Nat.cast)) := by
  have whole : axes.map (fun axis => Subscript.range axis.low axis.high) =
    Access.fullRanges extents := by
    have mapped := congrArg (List.map fun bounds : Int × Int => Subscript.range bounds.1 bounds.2)
      spans.ranges
    simpa only [map_map, Function.comp_def, Access.fullRanges] using mapped
  have full := @Access.points_full "" ⟨extents, .bool, [], .anywhere, true⟩ count product few
    fun _ => none
  rw [Effect.MapBody.points, same, whole]
  exact full

theorem checkAxes_eq (spans : Spans axes params extents)
    (small : ∀ extent ∈ extents, extent < indexBound) :
    Graph.checkAxes "" [] axes = .ok params := by
  have from_here (seen : List String) (axes : List Axis)
    (distinct : (seen ++ axes.map Axis.param).Nodup)
      (ordered : ∀ axis ∈ axes, ¬ axis.high < axis.low) :
      Graph.checkAxes "" seen axes = .ok (seen ++ axes.map Axis.param) := by
    induction axes generalizing seen with
    | nil =>
      rw [map_nil, append_nil]
      rfl
    | cons axis axes ih =>
      obtain ⟨here, ordered⟩ := forall_mem_cons.mp ordered
      have new : axis.param ∉ seen :=
        fun old => (nodup_append.mp distinct).2.2 axis.param old axis.param mem_cons_self rfl
      rw [map_cons, append_cons] at distinct ⊢
      rw [Graph.checkAxes, if_neg here, if_neg new]
      exact ih (seen ++ [axis.param]) distinct ordered
  rw [← spans.params_eq]
  refine from_here [] axes (spans.params_eq ▸ spans.distinct) fun axis member => ?_
  have listed : (axis.low, axis.high) ∈ extents.map fun extent => ((0 : Int), signedWord extent) :=
    spans.ranges ▸ mem_map_of_mem member
  obtain ⟨extent, known, same⟩ := mem_map.mp listed
  obtain ⟨low, high⟩ := Prod.mk.inj same
  rw [← low, ← high, signedWord_eq (small extent known)]
  omega

end Axis.Spans

section

variable {symbols : Symbols} {pairs : List (Axis × Int)}

theorem get?_bound_other (other : ∀ pair ∈ pairs, pair.1.param ≠ param) :
    (pairs.foldl (fun symbols (axis, i) => symbols.insert axis.param i) symbols).get? param =
    symbols.get? param := by
  induction pairs generalizing symbols with
  | nil => rfl
  | cons pair pairs ih =>
    obtain ⟨here, other⟩ := forall_mem_cons.mp other
    rw [foldl_cons, ih other, Dict.get?_insert, if_neg (Ne.symm here)]

theorem get?_bound {axis : Axis} {i : Int} (distinct : (pairs.map fun pair => pair.1.param).Nodup)
    (member : (axis, i) ∈ pairs) :
    (pairs.foldl (fun symbols (axis, i) => symbols.insert axis.param i) symbols).get? axis.param =
    some i := by
  induction pairs generalizing symbols with
  | nil => cases member
  | cons pair pairs ih =>
    obtain ⟨new, distinct⟩ := nodup_cons.mp distinct
    rw [foldl_cons]
    rcases mem_cons.mp member with rfl | later
    · rw [get?_bound_other fun pair listed same => new (mem_map.mpr ⟨pair, listed, same⟩),
        Dict.get?_insert, if_pos rfl]
    · exact ih distinct later

end

theorem Axis.Spans.get?_bindPoint {axes : List Axis} (spans : Spans axes params extents)
    (counted : index.length = extents.length) {i x : Nat} (named : params[i]? = some param)
    (coordinate : index[i]? = some x)
    : (bindPoint axes (index.map Nat.cast) symbols).get? param = some (x : Int) := by
  rw [← spans.params_eq, getElem?_map, Option.map_eq_some_iff] at named
  obtain ⟨axis, listed, rfl⟩ := named
  have pair : (axis, (x : Int)) ∈ axes.zip (index.map Nat.cast) := by
    refine mem_iff_getElem?.mpr ⟨i, getElem?_zip_eq_some.mpr ⟨listed, ?_⟩⟩
    rw [getElem?_map, coordinate]
    rfl
  refine get?_bound ?_ pair
  have firsts : (axes.zip (index.map Nat.cast : List Int)).map Prod.fst = axes :=
    map_fst_zip (by rw [length_map, counted, spans.counted])
  have params : (axes.zip (index.map Nat.cast : List Int)).map (fun pair => pair.1.param) =
    params := by
    rw [← spans.params_eq, ← firsts, map_map, firsts]
    rfl
  rw [params]
  exact spans.distinct

theorem checkIndex_cast {n : Nat} (small : n < indexBound) : checkIndex (n : Int) = .ok
    (n : Int) := by
  have positive : (0 : Int) ≤ indexBound := by decide
  exact checkIndex_eq_ok (by omega) (by exact_mod_cast small)

theorem Index.eval_shifted {offset x : Nat} (bound : lookup name = some (x : Int))
    (small : offset + x < indexBound) :
    Index.eval lookup ⟨[name], offset⟩ = .ok (some ((offset + x : Nat) : Int)) := by
  have here := checkIndex_cast small
  rw [Int.natCast_add] at here ⊢
  simp only [Index.eval, Index.sumFrom, bound, here, ok_bind]

theorem Index.eval_symbol {x : Nat} (bound : lookup name = some (x : Int))
    (small : x < indexBound) : (Index.symbol name).eval lookup = .ok (some (x : Int)) := by
  rw [← Nat.zero_add x] at small ⊢
  exact eval_shifted bound small

namespace Access

variable {lookup : String → Option Int}

theorem elementIndex_eq {index : List Int}
    (each : List.Forall₂ (fun (part : Index) i => part.eval lookup = .ok (some i)) parts index) :
    (Access.element name parts).elementIndex lookup = .ok index := by
  rw [elementIndex, element, mapM_eq_ok, forall₂_map_left_iff]
  refine each.imp fun part i gives => ?_
  dsimp only
  rw [gives]
  rfl

theorem readElement_index {access : Access} {t : Tensor} {index : List Nat}
    (found : memory.get? access.array = some t) (dense : t.Dense count)
    (holds : t.values = .ok values) (member : index ∈ Shape.indices t.shape)
    (subscripts : access.elementIndex lookup = .ok (index.map Nat.cast)) :
    access.readElement memory lookup = .ok (Shape.pick t.shape values index) := by
  rw [readElement, subscripts, ok_bind, Memory.array_eq_ok.mpr found, ok_bind,
    dense.read holds member]

end Access

-- A subscript that uses symbols of its map, or is a number in bounds.
def Index.Within (locals : List String) (part : Index) (extent : Nat) : Prop :=
  (part.symbols ≠ [] ∧ ∀ symbol ∈ part.symbols, symbol ∈ locals) ∨ ∃ i : Nat, part = .constant i ∧
    i < extent ∧ extent < indexBound

theorem Index.within_symbol {locals : List String} {extent : Nat} (bound : param ∈ locals) :
    (symbol param).Within locals extent :=
  .inl ⟨cons_ne_nil _ _, fun _ used => mem_singleton.mp used ▸ bound⟩

-- An access that every graph with the given arrays lets pass.
inductive Access.Allowed (arrays : Dict Descriptor) (locals : List String) : Access → Prop
  | element {name : String} {parts : List Index} {array : Descriptor} :
    arrays.get? name = some array →
    List.Forall₂ (Index.Within locals) parts array.shape →
    Allowed arrays locals (.element name parts)
  | full {name : String} {array : Descriptor} : arrays.get? name = some array →
    (∀ extent ∈ array.shape, extent < indexBound) →
    Allowed arrays locals (.full name array)

namespace Access.Allowed

variable {arrays : Dict Descriptor} {locals : List String} {access : Access}
  (allowed : access.Allowed arrays locals)

include allowed

theorem checkAccess {g : Graph} (keeps : arrays.Keeps g.arrays) : g.checkAccess locals access = .ok
    () := by
  cases allowed with
  | @element name parts array known within =>
    refine Graph.checkAccess_eq_ok (keeps name array known)
      (by simpa [Access.element, Descriptor.rank] using within.length_eq) ?_
    rintro ⟨subscript, extent⟩ member
    rw [Access.element, zip_map_left, mem_map] at member
    obtain ⟨⟨part, extent⟩, listed, same⟩ := member
    cases same
    rcases forall₂_zip within listed with ⟨some, bound⟩ | ⟨i, rfl, inside, small⟩
    · exact ⟨by simp [Graph.inBounds, Index.isConstant, some], fun symbol used => .inl
        (bound symbol used)⟩
    · have below : (i : Int) < signedWord extent := by
        rw [signedWord_eq small]
        exact_mod_cast inside
      exact ⟨by simp [Graph.inBounds, Index.constant, below], fun symbol used => by cases used⟩
  | @full name array known small => exact Graph.checkAccess_full (keeps name array known) rfl small

theorem mem_locals {symbol : String} (used : symbol ∈ access.symbols) : symbol ∈ locals := by
  cases allowed with
  | element _ within =>
    rw [symbols, Access.element, flatMap_map, mem_flatMap] at used
    obtain ⟨part, listed, used⟩ := used
    obtain ⟨_, -, ⟨-, bound⟩ | ⟨i, rfl, -⟩⟩ := Outcome.forall₂_left within listed
    · exact bound symbol used
    · cases used
  | @full name array =>
    have none : (Access.full name array).symbols = [] := symbols_full name array.shape
    rw [none] at used
    cases used

end Access.Allowed

-- A node without outer symbols that passes the checks of every graph with the given arrays.
def Node.Admitted (arrays : Dict Descriptor) (node : Node) : Prop :=
  node.symbols = [] ∧ ∀ g : Graph, arrays.Keeps g.arrays → g.checkNode 0 node = .ok ()

theorem MapNode.admitted {arrays : Dict Descriptor} {m : MapNode}
    (spans : Axis.Spans m.axes params extents)
    (small : ∀ extent ∈ extents, extent < indexBound) (writes : m.outputs.isEmpty = false)
    (assigns : m.code.toList.contains '=' = true)
    (dynamic : ∀ entry ∈ m.dynamic.entries, entry.2.Allowed arrays [] ∧ entry.2.volume = .ok 1)
    (each : ∀ access ∈ m.accesses, access.Allowed arrays m.locals) : Node.Admitted arrays
      (.map m) := by
  refine ⟨filter_eq_nil_iff.mpr fun symbol used => ?_, fun g keeps => Graph.checkMap_eq_ok.mpr
    ⟨writes, assigns, params, spans.checkAxes_eq small, ?_, ?_⟩⟩
  · obtain ⟨access, member, used⟩ := mem_flatMap.mp used
    simp [(each access member).mem_locals used]
  · exact fun entry member => ⟨(dynamic entry member).1.checkAccess keeps, (dynamic entry member).2⟩
  · intro access member
    rw [← spans.params_eq]
    exact (each access member).checkAccess keeps

theorem Effect.MapBody.kernelAt_scope {body : MapBody} (sorted : body.node.inputs.Sorted)
    (reads : ∀ entry ∈ body.elements, (entry.2.readElement memory symbols.get?).Succeeds) :
    ∃ scalars : Dict Datum, (∀ c access d, (c, access) ∈ body.elements →
      access.readElement memory symbols.get? = .ok d → scalars.get? c = some d) ∧
      (∀ c, (∀ access, (c, access) ∉ body.elements) → scalars.get? c = none) ∧
      body.kernelAt memory symbols = body.value.eval (body.scope memory scalars symbols) := by
  obtain ⟨scalars, read⟩ : (readScalars memory symbols body.elements {}).Succeeds :=
    succeeds_readScalars.mpr reads
  have distinct : (body.elements.map Prod.fst).Nodup :=
    sorted.nodup_keys.sublist (filter_sublist.map _)
  refine ⟨scalars, fun c access d member element => (get?_readScalars distinct read).mpr ⟨access,
    member, element⟩, fun c foreign => ?_, ?_⟩
  · refine Option.eq_none_iff_forall_ne_some.mpr fun d found => ?_
    obtain ⟨access, member, -⟩ := (get?_readScalars distinct read).mp found
    exact foreign access member
  · rw [kernelAt, read, ok_bind]

end TraceFlow
