import TraceFlow.Proofs.ClosedMaps
import TraceFlow.Proofs.IndexedKernels
import TraceFlow.Proofs.Windows

set_option autoImplicit false

namespace TraceFlow

open Kernel Program List

variable {allowed loose : String → Prop} {output : String} {dim : Nat} {m : MapNode}
  {axes : List Axis}

def Node.Closed (loose : String → Prop) : Node → Prop
  | .copy source target => source.symbols = [] ∧ target.symbols = []
  | .map m => m.Closed loose
  | .call _ _ => False

theorem Access.symbols_full (array : String) (shape : List Nat) :
    (⟨array, fullRanges shape⟩ : Access).symbols = [] := by
  rw [symbols, flatMap_eq_nil_iff]
  intro part member
  obtain ⟨extent, -, rfl⟩ := mem_map.mp member
  rfl

namespace Movement

variable {shape : List Nat} {pairs : List (Option String × Atom)} {index : List Index}
  {fetched : Dict Access}

theorem reading_moved (here : allowed "__in") : Reading allowed "__out = __in" :=
  reading_of_readsOne here (by decide +kernel)

theorem closed_concatenated {name : String} {offset : Int}
    (made : concatenated output name dim offset shape = .ok m) : m.Closed loose := by
  unfold concatenated at made
  dsimp only at made
  generalize shape.zipIdx.map _ = axes at made
  have within : ∀ i ∈ axes.map (fun axis => Index.symbol axis.param),
    i.Over (· ∈ axes.map Axis.param) := by
    intro i member
    obtain ⟨axis, known, rfl⟩ := mem_map.mp member
    exact Index.over_symbol (mem_map_of_mem known)
  generalize axes.map (fun axis => Index.symbol axis.param) = index at made within
  split at made
  · cases made
  next along found =>
    obtain ⟨moved, shifted, made⟩ := bind_eq_ok.mp made
    cases made
    have locals : axes.map Axis.param ++ ({} : Dict Access).keys = axes.map Axis.param :=
      append_nil _
    refine MapNode.closed_of_reading ?_ (fun entry member => absurd member not_mem_nil) ?_
      (reading_moved (.inr (.inl (Dict.mem_keys_ofList.mpr mem_cons_self))))
    · intro entry member
      obtain rfl := mem_singleton.mp (Dict.mem_of_mem_ofList member)
      simp only [MapNode.locals, locals]
      exact Access.element_over name within
    · intro entry member
      obtain rfl := mem_singleton.mp (Dict.mem_of_mem_ofList member)
      simp only [MapNode.locals, locals]
      refine Access.element_over output fun i member => ?_
      rcases mem_or_eq_of_mem_set member with known | rfl
      · exact within i known
      · exact (within along (mem_of_getElem? found)).plus shifted

theorem windowIndex_over (made : windowIndex output axes dim pairs = .ok (index, fetched)) :
    ∀ i ∈ index, i.Over (· ∈ axes.map Axis.param ++ fetched.keys) := by
  induction pairs generalizing dim index fetched with
  | nil =>
    cases made
    simp
  | cons pair rest ih =>
    obtain ⟨start?, atom⟩ := pair
    rw [windowIndex] at made
    split at made
    · cases made
    next axis found =>
      have param : axis.param ∈ axes.map Axis.param := mem_map_of_mem (mem_of_getElem? found)
      dsimp only at made
      split at made
      next start =>
        obtain ⟨⟨others, fetched'⟩, later, made⟩ := bind_eq_ok.mp made
        cases made
        refine forall_mem_cons.mpr ⟨fun s used => ?_, fun i member s used => ?_⟩
        · rcases mem_cons.mp used with rfl | used
          · exact mem_append_left _ param
          · rw [mem_singleton.mp used]
            exact mem_append_right _ (Dict.mem_keys_insert.mpr (.inl rfl))
        · rcases mem_append.mp (ih later i member s used) with axis | known
          · exact mem_append_left _ axis
          · exact mem_append_right _ (Dict.mem_keys_insert.mpr (.inr known))
      next literal =>
        obtain ⟨part, shifted, made⟩ := bind_eq_ok.mp made
        obtain ⟨⟨others, fetched'⟩, later, made⟩ := bind_eq_ok.mp made
        cases made
        exact forall_mem_cons.mpr ⟨(Index.over_symbol (mem_append_left _ param)).plus shifted,
          ih later⟩
      · cases made

theorem closed_windowNode {source : String}
    (window : windowIndex output (Elementwise.axes shape) 0 pairs = .ok (index, fetched)) :
    (windowNode output source shape index fetched).Closed loose := by
  refine MapNode.closed_of_reading ?_ ?_ ?_
    (reading_moved (.inr (.inl (Dict.mem_keys_ofList.mpr mem_cons_self))))
  · intro entry member
    obtain rfl := mem_singleton.mp (Dict.mem_of_mem_ofList member)
    exact Access.element_over _ (orScalar_over (windowIndex_over window))
  · intro entry member
    obtain ⟨sorted, known⟩ := windowIndex_fetched window
    obtain ⟨start, -, -, same⟩ := (known entry.1 entry.2).mp (sorted.mem_entries.mp member)
    rw [same]
    exact Access.element_over start (forall_mem_singleton.mpr (Index.over_constant 0))
  · intro entry member
    obtain rfl := mem_singleton.mp (Dict.mem_of_mem_ofList member)
    exact Access.element_over _ (Elementwise.target_over fun axis known => mem_append_left _
      (mem_map_of_mem known))

end Movement

namespace Kernel.Expr

variable {es : List Expr}

theorem exists_of_mem_namesAll {n : String} (member : n ∈ namesAll es) : ∃ e ∈ es, n ∈ e.names := by
  induction es with
  | nil =>
    rw [namesAll] at member
    cases member
  | cons e rest ih =>
    rw [namesAll] at member
    rcases mem_append.mp member with here | later
    · exact ⟨e, mem_cons_self, here⟩
    · obtain ⟨e, listed, member⟩ := ih later
      exact ⟨e, mem_cons_of_mem _ listed, member⟩

theorem subscriptsAll_eq_nil (each : ∀ e ∈ es, e.subscripts = []) : subscriptsAll es = [] := by
  induction es with
  | nil => exact subscriptsAll_nil
  | cons e rest ih =>
    obtain ⟨here, later⟩ := forall_mem_cons.mp each
    rw [subscriptsAll, here, ih later]
    rfl

end Kernel.Expr

namespace Gather

namespace Plan

variable (p : Plan)

-- The subscript of the source in a dimension: the axis, the start, or their sum.
def part (dim : Nat) : String × List Token × Expr :=
  let axis := "__i" ++ dim.repr
  let start := "__gather_" ++ dim.repr
  if dim ∉ p.startMap then (axis, [.name axis], .name axis)
  else if dim ∈ p.collapsed then (start, [.name start], .name start)
  else (start ++ " + " ++ axis, [.name start, .mark .plus, .name axis],
    .arith .add (.name start) (.name axis))

theorem subscript_part (dim : Nat) : Kernel.Subscript (p.part dim).1 (p.part dim).2.1
    (p.part dim).2.2 := by
  have axis : isWord ("__i" ++ dim.repr) = true := isWord_numbered (by decide) dim
  have start : isWord ("__gather_" ++ dim.repr) = true := isWord_numbered (by decide) dim
  unfold part
  split
  · exact subscript_word axis
  · split
    · exact subscript_word start
    · exact subscript_sum start axis

theorem names_part (dim : Nat) : ∀ n ∈ (p.part dim).2.2.names,
    (¬ (dim ∈ p.startMap ∧ dim ∈ p.collapsed) ∧ n = "__i" ++ dim.repr) ∨ dim ∈ p.startMap ∧
    n = "__gather_" ++ dim.repr := by
  intro n member
  unfold part at member
  split at member
  next free =>
    rw [Expr.names, mem_singleton] at member
    exact .inl ⟨fun both => free both.1, member⟩
  next indexed =>
    split at member
    · rw [Expr.names, mem_singleton] at member
      exact .inr ⟨not_not.mp indexed, member⟩
    next kept =>
      rw [Expr.names, Expr.names, Expr.names, mem_append, mem_singleton, mem_singleton] at member
      rcases member with start | axis
      · exact .inr ⟨not_not.mp indexed, start⟩
      · exact .inl ⟨fun both => kept both.2, axis⟩

theorem subscripts_part (dim : Nat) : (p.part dim).2.2.subscripts = [] := by
  unfold part
  split
  · rw [Expr.subscripts]
  · split
    · rw [Expr.subscripts]
    · rw [Expr.subscripts, Expr.subscripts, Expr.subscripts]
      rfl

variable {p} in
theorem subscripts_eq_ok {pairs : List (Nat × Nat)} {texts : List String}
    (made : p.subscripts dim pairs = .ok (axes, texts)) :
    texts = (List.range' dim pairs.length).map (fun dim => (p.part dim).1) ∧
      axes.map Axis.param = ((List.range' dim pairs.length).filter fun dim =>
        ¬ (dim ∈ p.startMap ∧ dim ∈ p.collapsed)).map fun dim => "__i" ++ dim.repr := by
  induction pairs generalizing dim axes texts with
  | nil =>
    cases made
    exact ⟨rfl, rfl⟩
  | cons pair rest ih =>
    rw [Plan.subscripts] at made
    dsimp only at made
    rw [length_cons, range'_succ, map_cons, part]
    split at made
    next free =>
      obtain ⟨-, made⟩ := unless_eq_ok.mp made
      obtain ⟨⟨axes, texts⟩, cut, made⟩ := bind_eq_ok.mp made
      cases made
      obtain ⟨same, params⟩ := ih cut
      rw [if_pos free, filter_cons_of_pos (by simp [free]), map_cons, map_cons, same, params]
      exact ⟨rfl, rfl⟩
    next indexed =>
      have indexed := not_not.mp indexed
      obtain ⟨⟨axes, texts⟩, cut, made⟩ := bind_eq_ok.mp made
      obtain ⟨same, params⟩ := ih cut
      rw [if_neg (not_not.mpr indexed)]
      dsimp only at made
      split at made
      next gone =>
        cases made
        rw [if_pos gone, filter_cons_of_neg (by simp [indexed, gone]), same, params]
        exact ⟨rfl, rfl⟩
      next kept =>
        cases made
        rw [if_neg kept, filter_cons_of_pos (by simp [kept]), map_cons, map_cons, same, params]
        exact ⟨rfl, rfl⟩

end Plan

theorem target_eq_ok {batch dims kept : List Nat} {parts : List Index} (distinct : dims.Nodup) :
    target output batch dims kept = .ok parts ↔
    (dims.filter fun dim => dim ∉ batch).length ≤ kept.length ∧
      parts = dims.map fun dim => .symbol (if dim ∈ batch then patchParam output dim
        else "__i" ++ (kept.getD ((dims.filter fun dim => dim ∉ batch).idxOf dim) 0).repr) := by
  induction dims generalizing kept parts with
  | nil => simp [target, eq_comm]
  | cons dim dims ih =>
    obtain ⟨new, distinct⟩ := nodup_cons.mp distinct
    rw [target.eq_def, map_cons]
    dsimp only
    by_cases here : dim ∈ batch
    · have others : (dim :: dims).filter (fun dim => dim ∉ batch) = dims.filter fun dim =>
        dim ∉ batch := by
        simp [here]
      rw [if_pos here, if_pos here, others, bind_eq_ok]
      constructor
      · rintro ⟨_, made, ⟨⟩⟩
        obtain ⟨fewer, rfl⟩ := (ih distinct).mp made
        exact ⟨fewer, rfl⟩
      · rintro ⟨fewer, rfl⟩
        exact ⟨_, (ih distinct).mpr ⟨fewer, rfl⟩, rfl⟩
    · have first : (dim :: dims).filter (fun dim => dim ∉ batch) = dim :: dims.filter fun dim =>
        dim ∉ batch := by
        simp [here]
      rw [if_neg here, if_neg here, first]
      cases kept with
      | nil => simp [refuse]
      | cons start kept =>
        have later : dims.map (fun other => Index.symbol (if other ∈ batch then
          patchParam output other
            else "__i" ++ ((start :: kept).getD ((dim :: dims.filter fun dim => dim ∉ batch).idxOf
              other) 0).repr)) =
            dims.map fun other => .symbol (if other ∈ batch then patchParam output other
              else "__i" ++ (kept.getD ((dims.filter fun dim => dim ∉ batch).idxOf other)
                0).repr) := by
          refine map_congr_left fun other listed => ?_
          have apart : dim ≠ other := fun same => new (same ▸ listed)
          rw [idxOf_cons_ne _ apart]
          rfl
        rw [later, idxOf_cons_self, length_cons, length_cons, Nat.succ_le_succ_iff]
        refine bind_eq_ok.trans ⟨?_, ?_⟩
        · rintro ⟨_, made, ⟨⟩⟩
          obtain ⟨fewer, rfl⟩ := (ih distinct).mp made
          exact ⟨fewer, rfl⟩
        · rintro ⟨fewer, rfl⟩
          exact ⟨_, (ih distinct).mpr ⟨fewer, rfl⟩, rfl⟩

theorem check_of_node {plan : Plan} {source index : String}
    {sourceShape indexShape outputShape : List Nat}
    (made : node plan source index output sourceShape indexShape outputShape = .ok m) :
    plan.sizes.length = sourceShape.length ∧ (plan.batchDims outputShape.length).length + 1 =
    indexShape.length := by
  obtain ⟨_, checked, -⟩ := bind_eq_ok.mp made
  unfold Plan.check at checked
  obtain ⟨-, checked⟩ := unless_eq_ok.mp checked
  obtain ⟨sizes, checked⟩ := unless_eq_ok.mp checked
  obtain ⟨rank, checked⟩ := unless_eq_ok.mp checked
  exact ⟨not_not.mp sizes, not_not.mp rank⟩

theorem params_batchAxes {plan : Plan} {output : String} {rank : Nat} {indexShape : List Nat}
    (fits : (plan.batchDims rank).length + 1 = indexShape.length) :
    (batchAxes plan output rank indexShape).map Axis.param = (plan.batchDims rank).map
      (patchParam output) := by
  rw [batchAxes, map_map]
  refine map_fst_zip ?_
  rw [length_map]
  omega

theorem window?_full {source : String} {shape : List Nat} (some : shape ≠ []) :
    Effect.window? ⟨source, Access.fullRanges shape⟩ = .some ⟨source, shape.map fun _ => 0⟩ := by
  have starts (f : Subscript → Option Int) (ranged : ∀ low high, f (.range low high) = .some low)
    (shape : List Nat) :
      (Access.fullRanges shape).mapM f = .some (shape.map fun _ => (0 : Int)) := by
    induction shape with
    | nil => rfl
    | cons extent rest ih =>
      rw [Access.fullRanges] at ih ⊢
      rw [map_cons, mapM_cons, ih, ranged]
      rfl
  obtain ⟨extent, rest, rfl⟩ := exists_cons_of_ne_nil some
  unfold Effect.window?
  dsimp only
  rw [starts _ fun _ _ => rfl]
  rfl

theorem lookup_windows {entries : List (String × Access)} {key : String} {access : Access}
    {w : Effect.Window} (found : Dict.lookup key entries = some access)
    (window : Effect.window? access = some w) :
    Dict.lookup key (entries.filterMap fun (connector, access) => (Effect.window? access).map
      fun w => (connector, w)) = some w := by
  induction entries with
  | nil => cases found
  | cons entry rest ih =>
    obtain ⟨k, a⟩ := entry
    rw [Dict.lookup] at found
    rw [filterMap_cons]
    dsimp only
    split at found
    next same =>
      cases found
      rw [window]
      simp [Dict.lookup, same]
    next apart =>
      cases Effect.window? a with
      | none => exact ih found
      | some w' =>
        rw [Option.map_some]
        dsimp only
        rw [Dict.lookup, if_neg apart]
        exact ih found

section

variable {source index : String} {shape : List Nat} {params : List String} {startMap : List Nat}

theorem mem_reads {entry : String × Access}
    (member : entry ∈ (reads source index shape params startMap).entries) :
    entry = ("__arr", ⟨source, Access.fullRanges shape⟩) ∨ ∃ dim i : Nat, startMap[i]? = some dim ∧
      entry = ("__gather_" ++ dim.repr,
        .element index (params.map Index.symbol ++ [.constant i])) := by
  rcases mem_cons.mp (Dict.mem_of_mem_ofList member) with here | there
  · exact .inl here
  · obtain ⟨⟨dim, i⟩, listed, rfl⟩ := mem_map.mp there
    exact .inr ⟨dim, i, mem_zipIdx_iff_getElem?.mp listed, rfl⟩

theorem start_mem_reads {dim : Nat} (member : dim ∈ startMap) :
    "__gather_" ++ dim.repr ∈ (reads source index shape params startMap).keys := by
  refine Dict.mem_keys_ofList.mpr (mem_cons_of_mem _ ?_)
  obtain ⟨i, small, rfl⟩ := mem_iff_getElem.mp member
  rw [map_map]
  refine mem_map.mpr ⟨(startMap[i], i), ?_, rfl⟩
  rw [mem_zipIdx_iff_getElem?]
  exact getElem?_eq_getElem small

theorem start_ne_source (dim : Nat) : "__gather_" ++ dim.repr ≠ "__arr" := by
  intro same
  have lists := congrArg String.toList same
  rw [String.toList_append] at lists
  cases lists

theorem get?_source : (reads source index shape params startMap).get? "__arr" =
    some ⟨source, Access.fullRanges shape⟩ := by
  cases found : (reads source index shape params startMap).get? "__arr" with
  | none => exact absurd (Dict.mem_keys_ofList.mpr mem_cons_self) (Dict.lookup_eq_none.mp found)
  | some access =>
    rcases mem_reads (Dict.mem_of_lookup found) with same | ⟨dim, i, -, same⟩
    · cases same
      rfl
    · exact absurd (congrArg Prod.fst same).symm (start_ne_source dim)

end

theorem closed_node {plan : Plan} {source index : String}
    {sourceShape indexShape outputShape : List Nat}
    (made : node plan source index output sourceShape indexShape outputShape = .ok m) :
    m.Closed loose := by
  obtain ⟨sizes, fits⟩ := check_of_node made
  obtain ⟨axes, texts, place, cut, put, -, shown⟩ := node_eq_ok made
  obtain ⟨rfl, params⟩ := Plan.subscripts_eq_ok cut
  rw [length_zip, sizes, Nat.min_self] at params
  have batched := @params_batchAxes plan output outputShape.length indexShape fits
  have inputs : m.inputs = reads source index sourceShape ((plan.batchDims outputShape.length).map
    (patchParam output)) plan.startMap :=
    congrArg MapNode.inputs shown
  have locals {n : String} (member : n ∈ (batchAxes plan output outputShape.length indexShape ++
    axes).map Axis.param) : n ∈ m.locals := by
    rw [shown]
    refine mem_append_left _ ?_
    dsimp only
    split
    next empty =>
      rw [List.isEmpty_iff.mp empty] at member
      cases member
    · exact member
  have batch (dim : Nat) (member : dim ∈ plan.batchDims outputShape.length) :
    patchParam output dim ∈ m.locals := by
    refine locals ?_
    rw [map_append, batched]
    exact mem_append_left _ (mem_map_of_mem member)
  have sliced {dim : Nat} (small : dim < sourceShape.length)
    (kept : ¬ (dim ∈ plan.startMap ∧ dim ∈ plan.collapsed)) : "__i" ++ dim.repr ∈ m.locals := by
    refine locals (map_append ▸ mem_append_right _ ?_)
    refine params ▸ mem_map_of_mem (mem_filter.mpr ⟨mem_range'_1.mpr ⟨Nat.zero_le dim, ?_⟩,
      decide_eq_true kept⟩)
    rwa [Nat.zero_add]
  have starts (dim i : Nat) : Access.Element m.locals
      (.element index (((plan.batchDims outputShape.length).map (patchParam output)).map
        Index.symbol ++ [.constant i])) := by
    refine Access.element_over index fun j member => ?_
    rcases mem_append.mp member with symbol | last
    · obtain ⟨param, listed, rfl⟩ := mem_map.mp symbol
      obtain ⟨dim, known, rfl⟩ := mem_map.mp listed
      exact Index.over_symbol (batch dim known)
    · rw [mem_singleton.mp last]
      exact Index.over_constant _
  have place_over : ∀ i ∈ place, i.Over (· ∈ m.locals) := by
    obtain ⟨fewer, written⟩ := (target_eq_ok nodup_range).mp put
    rw [written]
    refine forall_mem_map.mpr fun dim listed => Index.over_symbol ?_
    split
    next along => exact batch dim along
    next across =>
      have inside :=
        (idxOf_lt_length_of_mem (mem_filter.mpr ⟨listed, decide_eq_true across⟩)).trans_le fewer
      obtain ⟨small, kept⟩ := mem_filter.mp (getElem_mem inside)
      rw [getD_eq_getElem?_getD, getElem?_eq_getElem inside]
      exact sliced (sizes ▸ mem_range.mp small) fun both => of_decide_eq_true kept both.2
  have outputs : ∀ entry ∈ m.outputs.entries, entry.2.Element m.locals := by
    intro entry member
    rw [congrArg MapNode.outputs shown] at member
    rw [mem_singleton.mp (Dict.mem_of_mem_ofList member)]
    refine Access.element_over output fun i member => ?_
    split at member
    · rcases mem_append.mp member with here | last
      · exact place_over i here
      · rw [mem_singleton.mp last]
        exact Index.over_constant 0
    · exact place_over i member
  refine ⟨MapNode.outerSymbols_eq_nil (fun entry member => ?_) outputs, fun body prepared subsets =>
    ?_⟩
  · rw [inputs] at member
    rcases mem_reads member with rfl | ⟨dim, i, -, rfl⟩
    · rw [Access.symbols_full]
      exact nil_subset _
    · exact (starts dim i).symbols_subset
  obtain ⟨rfl, parsed, target, only⟩ := prepare_eq_ok prepared
  have source? := @get?_source source index sourceShape ((plan.batchDims outputShape.length).map
    (patchParam output)) plan.startMap
  have full : sourceShape ≠ [] := by
    intro empty
    refine subsets ⟨source, Access.fullRanges sourceShape⟩ ?_ (by rw [empty]; rfl)
    exact mem_map.mpr ⟨_, mem_append_left _ (inputs ▸ Dict.mem_of_lookup source?), rfl⟩
  have window := @window?_full source sourceShape full
  have code : body.node.code = "__out = " ++
    ("__arr" ++ Text.bracketed (((List.range' 0 sourceShape.length).map plan.part).map
      Prod.fst)) := by
    rw [shown, ← String.append_assoc, map_map, length_zip, sizes, Nat.min_self]
    rfl
  rw [code, parse_indexed (by decide) (by simpa using full)
    (by simp [Plan.subscript_part])] at parsed
  have value := (Assignment.mk.inj (Except.ok.inj parsed)).2
  constructor
  · intro entry member
    obtain ⟨listed, element⟩ := mem_filter.mp member
    rw [inputs] at listed
    rcases mem_reads listed with rfl | ⟨dim, i, -, rfl⟩
    · exact absurd (window.symm.trans (Option.isNone_iff_eq_none.mp element)) (by simp)
    · exact starts dim i
  · intro entry member
    rw [shown] at member
    cases member
  · exact outputs (target, body.output) (by simp [only])
  · intro n member
    rw [← value, Expr.names] at member
    obtain ⟨x, listed, member⟩ := Expr.exists_of_mem_namesAll member
    obtain ⟨_, known, rfl⟩ := mem_map.mp listed
    obtain ⟨dim, small, rfl⟩ := mem_map.mp known
    rw [← range_eq_range', mem_range] at small
    rcases plan.names_part dim n member with ⟨kept, rfl⟩ | ⟨started, rfl⟩
    · exact .inr (.inr (sliced small kept))
    · have key := @start_mem_reads source index sourceShape ((plan.batchDims outputShape.length).map
        (patchParam output)) _ _ started
      obtain ⟨entry, listed, named⟩ := mem_map.mp key
      refine .inr (.inl (mem_map.mpr ⟨entry, mem_filter.mpr ⟨inputs ▸ listed, ?_⟩, named⟩))
      rcases mem_reads listed with rfl | ⟨dim', i, -, rfl⟩
      · exact absurd named.symm (start_ne_source dim)
      · exact Option.isNone_iff_eq_none.mpr (starts dim' i).window?_eq_none
  · intro array count member
    rw [← value, Expr.subscripts,
      Expr.subscriptsAll_eq_nil (by simp [Plan.subscripts_part])] at member
    cases mem_singleton.mp member
    refine ⟨_, lookup_windows ?_ window, by simp⟩
    rw [inputs]
    exact source?

end Gather

theorem Emitted.closed {e : Equation} {names : List (Option String)} {outputs : List String}
    {node : Node}
    (exponent : loose "NaN" ∨ e.WholeExponent) (emitted : Emitted names outputs e node) :
    node.Closed loose := by
  cases emitted with
  | elementwise operation same _ noded =>
    exact (sealed_operations operation same exponent).closed noded
  | patch _ _ noded => exact Gather.closed_node noded
  | part _ _ noded => exact Movement.closed_concatenated noded
  | window _ _ window => exact Movement.closed_windowNode window
  | copied => exact ⟨Access.symbols_full _ _, Access.symbols_full _ _⟩

end TraceFlow
