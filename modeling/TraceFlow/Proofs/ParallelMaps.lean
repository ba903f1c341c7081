import TraceFlow.Proofs.ReorderedMaps
import TraceFlow.Proofs.SwappedNodes

set_option autoImplicit false

namespace TraceFlow

open Lowering List
open Effect.MapBody (bindPoint)

variable {lookup : String → Option Int} {m : MapNode} {names : List (Option String)}
  {parts : List Index} {output : String} {shape : List Nat} {e : Equation}

-- A map that reads given arrays only, and writes at an index with a part for each axis of more than
-- one point.
structure MapNode.Shows (m : MapNode) (names : List (Option String)) (output : String) : Prop where
  reads : ∀ name ∈ m.sources, some name ∈ names
  writes : ∃ parts, m.outputs = Dict.ofList [("__out", .element output parts)] ∧
    ∀ axis ∈ m.axes, axis.high ≤ axis.low + 1 ∨ ∃ part ∈ parts, part.symbols = [axis.param]

theorem Access.eval_of_elementIndex {array : String} {index : List Int}
    (placed : (element array parts).elementIndex lookup = .ok index) :
    List.Forall₂ (fun part i => part.eval lookup = .ok (some i)) parts index := by
  rw [elementIndex, element, mapM_eq_ok, forall₂_map_left_iff] at placed
  refine placed.imp fun part i gives => ?_
  obtain ⟨found, value, gives⟩ := bind_eq_ok.mp gives
  cases found with
  | none =>
    obtain ⟨_, -, gives⟩ := bind_eq_ok.mp gives
    cases gives
  | some found =>
    cases gives
    exact value

theorem Index.eval_single {part : Index} {param : String} (single : part.symbols = [param])
    {x i : Int} (bound : lookup param = some x)
    (value : part.eval lookup = .ok (some i)) : i = part.offset + x := by
  rw [eval, single, sumFrom, bound] at value
  obtain ⟨total, checked, value⟩ := bind_eq_ok.mp value
  cases value
  exact eq_of_checkIndex checked

theorem MapNode.Shows.separates (shows_ : m.Shows names output) (apart : some output ∉ names)
    (distinct : (m.axes.map Axis.param).Nodup) : m.Separates := by
  obtain ⟨parts, written, covered⟩ := shows_.writes
  have only (entry : String × Access) (member : entry ∈ m.outputs.entries) :
    entry.2 = .element output parts := by
    rw [written] at member
    rw [mem_singleton.mp (Dict.mem_of_mem_ofList member)]
  constructor
  · intro entry member read
    rw [only entry member] at read
    exact apart (shows_.reads _ read)
  · intro entry member symbols point point' index index' admits admits' differ placed placed' same
    rw [only entry member] at placed placed'
    subst same
    refine differ (ext_getElem (admits.length_eq.symm.trans admits'.length_eq) fun k here there =>
      ?_)
    have inside : k < m.axes.length := admits.length_eq ▸ here
    have bounds := admits.get inside here
    have bounds' := admits'.get inside there
    rcases covered m.axes[k] (getElem_mem inside) with single | ⟨part, listed, single⟩
    · simp only [Axis.Admits, get_eq_getElem] at bounds bounds'
      omega
    · have bound {point : List Int} (admits : List.Forall₂ Axis.Admits m.axes point)
        (here : k < point.length) :
          (bindPoint m.axes point symbols).get? m.axes[k].param = some point[k] := by
        have firsts : (m.axes.zip point).map Prod.fst = m.axes :=
          map_fst_zip (Nat.le_of_eq admits.length_eq)
        refine get?_bound ?_ (mem_iff_getElem.mpr ⟨k, by simpa using ⟨inside, here⟩, getElem_zip⟩)
        have params := congrArg (List.map Axis.param) firsts
        rw [map_map] at params
        exact params ▸ distinct
      obtain ⟨j, small, rfl⟩ := mem_iff_getElem.mp listed
      have values := Access.eval_of_elementIndex placed
      have values' := Access.eval_of_elementIndex placed'
      have small' : j < index.length := values.length_eq ▸ small
      have first := Index.eval_single single (bound admits here) (values.get small small')
      have second := Index.eval_single single (bound admits' there) (values'.get small small')
      omega

namespace Elementwise

theorem target_shows {axis : Axis} (member : axis ∈ axes shape) : axis.high ≤ axis.low + 1 ∨
    ∃ part ∈ target shape, part.symbols = [axis.param] := by
  by_cases scalar : shape.isEmpty = true
  · rw [axes, if_pos scalar, mem_singleton] at member
    rw [member]
    exact .inl (by decide)
  · refine .inr ⟨.symbol axis.param, ?_, rfl⟩
    rw [target, if_neg scalar]
    exact mem_map_of_mem member

theorem reads_operands {op : Elementwise} (operation : op ∈ operations) {axes : List Axis}
    {inputs : Dict Access} (read : op.readsOf axes names e shape = .ok inputs) :
    ∀ entry ∈ inputs.entries, some entry.2.array ∈ names := by
  have default (none : op.reads? = none) : ∀ entry ∈ inputs.entries,
    some entry.2.array ∈ names := by
    intro entry member
    rw [readsOf, none] at read
    unfold defaultReads at read
    dsimp only at read
    split at read
    · cases read
    · obtain ⟨sorted, each⟩ := get?_defaultReadsFrom read
      obtain ⟨j, name, index, -, listed, same⟩ :=
        each entry.1 entry.2 (sorted.mem_entries.mp member)
      rw [same]
      exact mem_of_getElem? listed
  have first {reads : List Axis → List (Option String) → Equation → Outcome (Dict Access)}
    (known : op.reads? = some reads)
      (firstly : Movement.ReadsFirst reads) : ∀ entry ∈ inputs.entries,
      some entry.2.array ∈ names := by
    intro entry member
    rw [readsOf, known] at read
    rcases names with _ | ⟨_ | name, others⟩
    · cases firstly.missing read
      cases member
    · cases firstly.literal read
      cases member
    · obtain ⟨index, -, rfl, -⟩ := @Movement.ReadsFirst.first _ firstly (fun _ => True) _ _ _ _ _
        (fun _ _ => trivial) read
      obtain rfl := mem_singleton.mp (Dict.mem_of_mem_ofList member)
      exact mem_cons_self
  simp only [operations, mem_append, mem_map, mem_cons, not_mem_nil, or_false] at operation
  rcases operation with (⟨_, -, rfl⟩ | ⟨_, -, rfl⟩) | rfl | rfl | rfl | rfl | rfl | rfl | rfl | rfl
  · exact default rfl
  · exact default rfl
  · exact first rfl (Movement.readsFirst_broadcast rfl)
  · exact default rfl
  · exact default rfl
  · exact default rfl
  · intro entry member
    cases read
    cases member
  · exact default rfl
  · exact first rfl (Movement.readsFirst_slice rfl)
  · exact first rfl (Movement.readsFirst_squeeze rfl)

end Elementwise

theorem Movement.shows_concatenated {name : String} {dim : Nat} {offset : Int}
    (made : concatenated output name dim offset shape = .ok m) (given : some name ∈ names) :
    m.Shows names output := by
  unfold concatenated at made
  dsimp only at made
  generalize shape.zipIdx.map _ = axes at made
  split at made
  · cases made
  next along found =>
    obtain ⟨moved, shifted, made⟩ := bind_eq_ok.mp made
    obtain ⟨sum, -, shifted⟩ := bind_eq_ok.mp shifted
    cases shifted
    cases made
    refine ⟨fun read member => ?_, _, rfl, fun axis member => .inr ?_⟩
    · obtain ⟨entry, listed, rfl⟩ := mem_map.mp member
      rcases mem_append.mp listed with input | none
      · rw [mem_singleton.mp (Dict.mem_of_mem_ofList input)]
        exact given
      · cases none
    · -- The parts are the axes, but that the one along the dimension is moved.
      obtain ⟨k, small, rfl⟩ := mem_iff_getElem.mp member
      have known : (axes.map fun axis => Index.symbol axis.param)[k]? =
        some (.symbol axes[k].param) := by
        simp [small]
      by_cases here : dim = k
      · subst here
        have same := Option.some.inj (found.symm.trans known)
        exact ⟨_, mem_of_getElem? (getElem?_set_self (by simpa using small)),
          congrArg Index.symbols same⟩
      · exact ⟨_, mem_of_getElem? ((getElem?_set_ne here).trans known), rfl⟩

theorem Movement.shows_window {source : String} {starts : List (Option String)} {atoms : List Atom}
    {index : List Index} {fetched : Dict Access}
    (window : windowIndex output (Elementwise.axes shape) 0 (starts.zip atoms) =
      .ok (index, fetched)) :
    (windowNode output source shape index fetched).Shows (some source :: starts) output := by
  refine ⟨fun read member => ?_, _, rfl, fun axis => Elementwise.target_shows⟩
  obtain ⟨entry, listed, rfl⟩ := mem_map.mp member
  rcases mem_append.mp listed with input | dynamic
  · rw [mem_singleton.mp (Dict.mem_of_mem_ofList input)]
    exact mem_cons_self
  · obtain ⟨sorted, known⟩ := windowIndex_fetched window
    obtain ⟨start, ⟨atom, paired⟩, -, same⟩ :=
      (known entry.1 entry.2).mp (sorted.mem_entries.mp dynamic)
    rw [same]
    exact mem_cons_of_mem _ (of_mem_zip paired).1

namespace Gather

theorem shows_node {plan : Plan} {source index : String}
    {sourceShape indexShape outputShape : List Nat}
    (made : node plan source index output sourceShape indexShape outputShape = .ok m) :
    m.Shows [some source, some index] output := by
  obtain ⟨sizes, fits⟩ := check_of_node made
  obtain ⟨axes, texts, place, cut, put, ranked, rfl⟩ := node_eq_ok made
  obtain ⟨-, params⟩ := Plan.subscripts_eq_ok cut
  rw [length_zip, sizes, Nat.min_self, ← range_eq_range'] at params
  have batched := @params_batchAxes plan output outputShape.length indexShape fits
  obtain ⟨fewer, written⟩ := (target_eq_ok nodup_range).mp put
  refine ⟨fun read member => ?_, _, rfl, fun axis member => ?_⟩
  · obtain ⟨entry, listed, rfl⟩ := mem_map.mp member
    rcases mem_append.mp listed with input | none
    · rcases mem_reads input with rfl | ⟨dim, i, -, rfl⟩
      · exact mem_cons_self
      · exact mem_cons_of_mem _ mem_cons_self
    · cases none
  by_cases empty : (batchAxes plan output outputShape.length indexShape ++ axes).isEmpty = true
  · rw [if_pos empty, mem_singleton] at member
    exact .inl (by rw [member]; decide)
  rw [if_neg empty] at member ⊢
  -- There are as many slice axes as output dimensions outside the batch, so that all of them are
  -- kept ones.
  have counted : ((List.range sourceShape.length).filter fun dim => ¬ (dim ∈ plan.startMap ∧
    dim ∈ plan.collapsed)).length =
      ((List.range outputShape.length).filter fun dim => dim ∉ plan.batchDims
        outputShape.length).length := by
    have sliced := congrArg List.length params
    have batches := congrArg List.length batched
    have split := length_eq_length_filter_add (l := List.range outputShape.length) fun dim =>
      dim ∉ plan.batchDims outputShape.length
    have batch : ((List.range outputShape.length).filter fun dim => !decide
      (dim ∉ plan.batchDims outputShape.length)) = plan.batchDims outputShape.length := by
      conv_rhs => rw [Plan.batchDims]
      refine filter_congr fun dim small => ?_
      simp [Plan.batchDims, mem_range.mp small]
    rw [batch, length_range] at split
    rw [length_append] at ranked
    simp only [length_map] at sliced batches
    omega
  have kept : plan.keptDims = (List.range sourceShape.length).filter fun dim =>
    ¬ (dim ∈ plan.startMap ∧ dim ∈ plan.collapsed) := by
    refine List.Sublist.eq_of_length_le ?_ (counted ▸ fewer)
    rw [Plan.keptDims, sizes]
    exact monotone_filter_right _ fun dim kept => decide_eq_true fun both => of_decide_eq_true kept
      both.2
  have across (dim : Nat) (listed : dim ∈ plan.keptDims) :
    Index.symbol ("__i" ++ dim.repr) ∈ place := by
    obtain ⟨i, inside, rfl⟩ := mem_iff_getElem.mp listed
    have inside' : i < ((List.range outputShape.length).filter fun dim => dim ∉ plan.batchDims
      outputShape.length).length := by
      rwa [← counted, ← kept]
    obtain ⟨small, outside⟩ := mem_filter.mp (getElem_mem inside')
    rw [written]
    refine mem_map.mpr ⟨_, small, ?_⟩
    rw [if_neg (of_decide_eq_true outside), (nodup_range.filter _).idxOf_getElem,
      getD_eq_getElem?_getD, getElem?_eq_getElem inside]
    rfl
  rcases mem_append.mp member with batch | slice
  · obtain ⟨dim, listed, same⟩ := mem_map.mp (batched ▸ mem_map_of_mem batch)
    refine .inr ⟨.symbol (patchParam output dim), ?_, congrArg (fun param => [param]) same⟩
    rw [written]
    exact mem_map.mpr ⟨dim, (mem_filter.mp listed).1, by rw [if_pos listed]⟩
  · obtain ⟨dim, listed, same⟩ := mem_map.mp (params ▸ mem_map_of_mem slice)
    exact .inr ⟨_, across dim (kept ▸ listed), congrArg (fun param => [param]) same⟩

end Gather

theorem Emitted.shows_ {outputs : List String} (emitted : Emitted names outputs e (.map m)) :
    ∃ output ∈ outputs, m.Shows names output := by
  cases emitted with
  | elementwise operation _ here made =>
    obtain ⟨inputs, template, filled, code, read, -, -, -, rfl⟩ := Elementwise.node_eq_ok made
    refine ⟨_, here, fun name member => ?_, _, rfl, fun axis => Elementwise.target_shows⟩
    obtain ⟨entry, listed, rfl⟩ := mem_map.mp member
    rcases mem_append.mp listed with input | none
    · exact Elementwise.reads_operands operation read entry input
    · cases none
  | patch given here made =>
    subst given
    exact ⟨_, here, Gather.shows_node made⟩
  | part given here made => exact ⟨_, here, Movement.shows_concatenated made given⟩
  | window given here made =>
    subst given
    exact ⟨_, here, Movement.shows_window made⟩

theorem Graph.nodup_of_checkAxes {place : String} {seen found : List String} {axes : List Axis}
    (checked : checkAxes place seen axes = .ok found)
    (distinct : seen.Nodup) : (seen ++ axes.map Axis.param).Nodup := by
  induction axes generalizing seen with
  | nil => rwa [map_nil, append_nil]
  | cons axis rest ih =>
    rw [checkAxes] at checked
    split at checked
    · cases checked
    · split at checked
      · cases checked
      next new =>
        rw [map_cons, append_cons]
        exact ih checked (nodup_append.mpr ⟨distinct,
          nodup_singleton
            _, by rintro a member b single rfl; exact new (mem_singleton.mp single ▸ member)⟩)

structure Graph.Parallel (g : Graph) (m : MapNode) : Prop where
  separates : m.Separates
  reorders :
    ∀ (body : Effect.MapBody) (memory : Memory) (symbols : Symbols) (t : Tensor)
      (array : Descriptor) (points order : List (List Int)),
    Program.prepare m = .ok body → memory.get? body.output.array = some t →
    g.array? body.output.array = some array → t.shape = array.shape →
    t.strides = array.strides → body.points = .ok points → points.Perm order →
    (∀ point ∈ points, (body.runPoint symbols memory point).Succeeds) →
    ∃ done, body.runPoints symbols memory points = .ok done ∧ body.runPoints symbols memory order =
    .ok done

theorem Lowers.parallel {fuel : Nat} {f : Lambda} {d : Draft} (lowers : Lowers fuel f d) {g : Graph}
    (valid : g.Valid) (declares : ∀ name array, d.graph.arrays.get? name = some array → ∃ array',
      g.arrays.get? name = some array' ∧ array'.shape = array.shape ∧
      array'.strides = array.strides)
    (member : Node.map m ∈ d.graph.nodes) (kept : Node.map m ∈ g.nodes) : g.Parallel m := by
  obtain ⟨s, state, inside⟩ := mem_flatMap.mp member
  obtain ⟨names, outputs, e, emitted, new⟩ : ∃ names outputs e, Emitted names outputs e (.map m) ∧
      ∀ output ∈ outputs, some output ∉ names ∧ ∃ array,
      d.graph.arrays.get? output = some array := by
    cases lowers.made s state _ inside with
    | emitted _ emitted new => exact ⟨_, _, _, emitted, new⟩
    | called _ _ _ calls =>
      obtain ⟨_, _, _, -, -, -, _, -, impossible⟩ := calls
      cases impossible
  obtain ⟨output, here, shows_⟩ := emitted.shows_
  obtain ⟨apart, array, known⟩ := new output here
  obtain ⟨-, -, params, axes, -⟩ := Graph.checkMap_eq_ok.mp (valid.nodes _ kept)
  have separates := shows_.separates apart (Graph.nodup_of_checkAxes axes nodup_nil)
  refine ⟨separates,
    fun body memory symbols t array' points order prepared found declared shape strides listed perm
      succeeds => ?_⟩
  refine separates.reorders prepared found ?_ listed perm succeeds
  -- The array is one of the draft, which are dense.
  obtain ⟨-, -, target, only⟩ := prepare_eq_ok prepared
  obtain ⟨parts, written, -⟩ := shows_.writes
  have same : body.output.array = output := by
    have entry : (target, body.output) ∈ m.outputs.entries := only ▸ mem_singleton_self _
    rw [written] at entry
    rw [(Prod.mk.inj (mem_singleton.mp (Dict.mem_of_mem_ofList entry))).2]
    rfl
  obtain ⟨_, declared', shape', strides'⟩ := declares output array known
  rw [same] at declared
  cases declared.symm.trans declared'
  rw [shape, strides, shape', strides', lowers.sound.dense output array known]

theorem Lowers.parallel_finish {fuel : Nat} {f : Lambda} {d : Draft} (lowers : Lowers fuel f d)
    {r : Routine} (finished : d.finish true = .ok r)
    (member : Node.map m ∈ r.graph.nodes) : r.graph.Parallel m := by
  obtain ⟨inputs, outputs, g, done, rfl, checked⟩ := finish_eq_ok.mp finished
  obtain ⟨-, -, -, valid⟩ := Routine.check_eq_ok.mp (checked rfl)
  obtain ⟨-, rfl⟩ := expose_eq_ok.mp done.exposed
  refine lowers.parallel valid (fun name array known => ?_) member member
  have found := get?_exposedArrays (distinct (inputs ++ outputs)) d.graph.arrays name
  rw [known] at found
  split at found
  · exact ⟨_, found, rfl, rfl⟩
  · exact ⟨_, found, rfl, rfl⟩

namespace Lowering

-- The maps of a lowered function and of all functions it calls are parallel.
theorem parallel_maps {f : Lambda} {name? : Option String} {b b' : Builder} {d : Draft}
    (lowered : Gives (lower .builtin f name?) b d b')
    {specs : List ArgSpec} {r : Routine} (made : d.toRoutine specs true = .ok r) :
    r.graph.Everywhere fun g => ∀ m, Node.map m ∈ g.nodes → g.Parallel m := by
  have lowers := lowers_of_gives lowered
  obtain ⟨feeds, feeds', stages, rfl, checked⟩ := toRoutine_iff.mp made
  obtain ⟨-, -, -, valid⟩ := Routine.check_eq_ok.mp (checked rfl)
  refine .intro _ (fun m member => ?_) fun site callee member => ?_
  · refine lowers.parallel valid (fun name array known => ?_) (Draft.node_of_routine member nofun)
      member
    exact ⟨array, stages.get?_routine known, rfl, rfl⟩
  · refine everywhere_callees (Q := fun _ => True) (fun _ _ _ _ _ _ => trivial)
      (fun fuel f d r _ lowers finished m inside => ?_) _ f d trivial lowers site callee
      (Draft.node_of_routine member nofun)
    exact lowers.parallel_finish finished inside

theorem parallel_maps_branching :
    let specs : List ArgSpec := [⟨[], .int64, none, .cpuHeap⟩, ⟨[2], .int64, some [3], .gpuGlobal⟩]
    ∃ d b r, Gives (lower .builtin branching none) (.new 0) d b ∧ d.toRoutine specs true = .ok r ∧
      r.graph.Everywhere fun g => ∀ m, Node.map m ∈ g.nodes → g.Parallel m := by
  intro specs
  have first : Outcome.Succeeds (do
      let d ← (lower .builtin branching none (.new 0)).1
      d.toRoutine specs true) := by decide +kernel
  rcases given : lower .builtin branching none (.new 0) with ⟨outcome, b⟩
  rw [given] at first
  obtain ⟨r, made⟩ := first
  obtain ⟨d, lowered, made⟩ := bind_eq_ok.mp made
  obtain rfl : outcome = .ok d := lowered
  exact ⟨d, b, r, given, made, parallel_maps given made⟩

end Lowering

end TraceFlow
