import TraceFlow.Proofs.CallingConvention
import TraceFlow.Proofs.FittingShapes

set_option autoImplicit false

namespace TraceFlow

open Boundary List

theorem Feed.Plans.exists_of_free {α : Type} {plan : Nat → Dict Descriptor → α → Feed → Prop}
    {name : Nat → String} (numbered : Function.Injective name)
    {items : List α} {i : Nat} {arrays : Dict Descriptor}
    (free : ∀ j, i ≤ j → arrays.contains (name j) = false)
    (each : ∀ (j : Nat) (item : α) (between : Dict Descriptor), items[j]? = some item →
      (∀ other, arrays.contains other = true → between.get? other = arrays.get? other) → ∃ feed,
      plan (i + j) between item feed ∧ feed.array = name (i + j)) :
    ∃ feeds, Plans plan i arrays items feeds := by
  induction items generalizing i arrays with
  | nil => exact ⟨[], .nil i arrays⟩
  | cons item rest ih =>
    obtain ⟨feed, planned, named⟩ := each 0 item arrays rfl fun _ _ => rfl
    have fresh : arrays.contains feed.array = false := named ▸ free i le_rfl
    have kept {other : String} (apart : other ≠ feed.array) :
      (arrays.insert feed.array feed.outer).get? other = arrays.get? other :=
      by rw [Dict.get?_insert, if_neg apart]
    have later : ∀ j, i + 1 ≤ j → (arrays.insert feed.array feed.outer).contains (name j) =
      false := by
      intro j behind
      have apart : name j ≠ feed.array := by
        rw [named]
        exact fun same => absurd (numbered same) (by omega)
      rw [Dict.contains, kept apart]
      exact free j (by omega)
    obtain ⟨feeds, plans⟩ := ih later fun j item between listed keeps => by
      rw [Nat.add_right_comm]
      refine each (j + 1) item between listed fun other present => ?_
      have apart : other ≠ feed.array := by
        rintro rfl
        rw [fresh] at present
        cases present
      rw [← kept apart]
      exact keeps other (by rw [Dict.contains, kept apart]; exact present)
    exact ⟨feed :: feeds, .cons planned fresh plans⟩

namespace Draft

variable {d : Draft} {specs : List ArgSpec} {feeds feeds' : List Feed}

namespace Sound

theorem sinks_staged (sound : d.Sound) (feeds feeds' : List Feed) :
    ((d.entered feeds).left feeds').graph.sinks = [d.graph.states.length + 1] := by
  have inside : d.terminal < d.graph.states.length := sound.inside
  have only : ∀ id ∈ List.range (d.graph.states.length + 2),
    decide (((d.entered feeds).left feeds').graph.outDegree id = 0) =
      decide (id = d.graph.states.length + 1) := by
    intro id listed
    rw [decide_eq_decide, Graph.outDegree, length_eq_zero_iff, Graph.outEdges, filter_eq_nil_iff,
      edges_staged]
    constructor
    · intro none
      by_contra other
      have unsent (e : Edge) (member : e ∈ d.graph.edges ++
        [{ source := d.graph.states.length, target := d.start },
          { source := d.terminal, target := d.graph.states.length + 1 }]) :
          e.source ≠ id := by simpa using none e member
      have entry := unsent { source := d.graph.states.length, target := d.start } (by simp)
      have exit := unsent { source := d.terminal, target := d.graph.states.length + 1 } (by simp)
      simp only at entry exit
      have low : id < d.graph.states.length := by
        have := mem_range.mp listed
        omega
      obtain ⟨e, member, source⟩ := sound.left id low (Ne.symm exit)
      exact unsent e (mem_append_left _ member) source
    · rintro rfl e member
      simp only [mem_append, mem_cons, not_mem_nil, or_false] at member
      rw [decide_eq_true_eq]
      rcases member with old | rfl | rfl
      · have forward := sound.leads old
        omega
      · simp only
        omega
      · simp only
        omega
  rw [Graph.sinks, length_staged, filter_congr only, filter_eq,
    count_eq_one_of_mem nodup_range (mem_range.2 (by omega)), replicate_one]

theorem inRange_staged (sound : d.Sound) (feeds feeds' : List Feed) :
    ((d.entered feeds).left feeds').graph.InRange := by
  have inside : d.terminal < d.graph.states.length := sound.inside
  have start : d.start = 0 := sound.start
  refine ⟨?_, fun e member => ?_⟩
  · rw [length_staged]
    simp only [entered, left]
    omega
  · rw [length_staged]
    rcases mem_edges_staged member with old | rfl | rfl
    · have forward := sound.leads old
      omega
    · simp only
      omega
    · simp only
      omega

theorem connected_staged (sound : d.Sound) (feeds feeds' : List Feed) :
    ((d.entered feeds).left feeds').graph.Connected := by
  have start : d.start = 0 := sound.start
  have leads (e : Edge) (member : e ∈ d.graph.edges ++ [{ source := d.graph.states.length, target :=
    d.start },
      { source := d.terminal, target := d.graph.states.length + 1 }]) :
      ((d.entered feeds).left feeds').graph.Leads e.source e.target :=
    ⟨e, edges_staged d feeds feeds' ▸ member, rfl, rfl⟩
  have entry : ((d.entered feeds).left feeds').graph.Reaches d.graph.states.length
    d.graph.start := by
    refine .single ?_
    have first : d.graph.start = 0 := sound.first
    rw [first, ← start]
    exact leads { source := d.graph.states.length, target := d.start } (by simp)
  have within {id : Nat} (path : d.graph.Reaches d.graph.start id) :
    ((d.entered feeds).left feeds').graph.Reaches d.graph.start id := by
    induction path with
    | refl => exact .refl
    | tail _ step ih =>
      obtain ⟨e, member, rfl, rfl⟩ := step
      exact ih.tail (leads e (mem_append_left _ member))
  intro id inside
  rw [length_staged] at inside
  change ((d.entered feeds).left feeds').graph.Reaches d.graph.states.length id
  rcases Nat.lt_trichotomy id d.graph.states.length with old | rfl | last
  · exact entry.trans (within (sound.connected id old))
  · exact .refl
  · obtain rfl : id = d.graph.states.length + 1 := by omega
    refine (entry.trans (within (sound.connected d.terminal sound.inside))).tail ?_
    exact leads { source := d.terminal, target := d.graph.states.length + 1 } (by simp)

end Sound

theorem check_staged (sound : d.Sound)
    (inputs : ∀ feed ∈ feeds, (Feed.declared feeds' (Feed.declared feeds d.graph.arrays)).contains
      feed.array = true)
    (outputs : ∀ feed ∈ feeds', (Feed.declared feeds' (Feed.declared feeds d.graph.arrays)).contains
      feed.array = true) : ((d.entered feeds).left feeds').check = .ok () := by
  have sinks := sound.sinks_staged feeds feeds'
  have last : ((d.entered feeds).left feeds').terminal = d.graph.states.length + 1 := by
    simp [entered, left]
  rw [check]
  refine unless_eq_ok.2 ⟨by simp [entered, left], unless_eq_ok.2 ⟨by rw [sinks, last]; simp, ?_⟩⟩
  refine bind_eq_ok.2 ⟨(), checkNames_eq_ok "input" fun name member => ?_,
    checkNames_eq_ok "output" fun name member => ?_⟩
  · obtain ⟨feed, listed, rfl⟩ := mem_map.mp member
    exact inputs feed listed
  · obtain ⟨feed, listed, rfl⟩ := mem_map.mp member
    exact outputs feed listed

theorem closed_of_plans (sound : d.Sound)
    (enters : Feed.Plans Feed.Enters 0 d.graph.arrays (d.inputs.zip specs) feeds)
    (leaves : Feed.Plans Feed.Leaves 0 (Feed.declared feeds d.graph.arrays) d.outputs feeds') :
    ((d.entered feeds).left feeds').check = .ok () := by
  refine check_staged sound (fun feed member => ?_) fun feed member => ?_
  · have present : (Feed.declared feeds d.graph.arrays).contains feed.array = true := by
      rw [Dict.contains, enters.get?_declared member]; rfl
    rw [Dict.contains, leaves.keeps present]
    exact present
  · rw [Dict.contains, leaves.get?_declared member]
    rfl

-- The arguments fit the inputs, and the results can be laid out.
structure Meets (d : Draft) (specs : List ArgSpec) : Prop where
  counted : specs.length = d.inputs.length
  apart : ∀ name ∈ d.outputs, name ∉ d.inputs
  used : d.inputs ≠ [] ∨ d.outputs ≠ []
  clear : ∀ i, d.graph.arrays.contains (inputName i) = false ∧
    d.graph.arrays.contains (outputName i) = false
  enters : ∀ (i : Nat) (name : String) (spec : ArgSpec) (array : Descriptor),
    d.inputs[i]? = some name → specs[i]? = some spec →
    d.graph.arrays.get? name = some array → (inputArray i array spec).Succeeds
  leaves : ∀ name ∈ d.outputs, ∀ array, d.graph.arrays.get? name = some array →
    (Descriptor.dense array.shape array.elem).Succeeds

theorem inputName_ne_outputName (i j : Nat) : inputName i ≠ outputName j := by
  intro same
  have letters := congrArg (fun name : String => name.toList.take 8) same
  simp only [inputName, outputName, String.toList_append] at letters
  rw [take_append_of_le_length (by decide), take_append_of_le_length (by decide)] at letters
  revert letters
  decide

theorem Meets.exists_stages (meets : d.Meets specs) (ready : d.Ready) :
    ∃ feeds feeds', d.Stages specs feeds feeds' := by
  have numbered (mark : String) : Function.Injective fun i : Nat => mark ++ i.repr :=
    fun i j same =>
    Text.repr_inj.mp ((String.append_right_inj mark).mp same)
  obtain ⟨feeds, enters⟩ : ∃ feeds, Feed.Plans Feed.Enters 0 d.graph.arrays (d.inputs.zip specs)
    feeds := by
    refine Feed.Plans.exists_of_free (numbered "__jace_input_") (fun i _ => (meets.clear i).1) ?_
    rintro i ⟨name, spec⟩ between listed keeps
    obtain ⟨input, given⟩ := getElem?_zip_eq_some.mp listed
    have present := ready.tidy.inputs name (mem_of_getElem? input)
    obtain ⟨array, known⟩ := Option.isSome_iff_exists.mp present
    obtain ⟨outer, made⟩ := meets.enters i name spec array input given known
    rw [Nat.zero_add]
    exact ⟨_, .intro ((keeps name present).trans known) made, rfl⟩
  obtain ⟨feeds', leaves⟩ :
    ∃ feeds', Feed.Plans Feed.Leaves 0 (Feed.declared feeds d.graph.arrays) d.outputs feeds' := by
    refine Feed.Plans.exists_of_free (numbered "__jace_output_") (fun i _ => ?_) ?_
    · have other : outputName i ∉ feeds.map Feed.array := by
        rw [enters.numbered
          fun i _ _ _ (enters : Feed.Enters i _ _ _) => by
            cases enters; exact (rfl : _ = inputName i)]
        intro member
        obtain ⟨j, -, same⟩ := mem_map.mp member
        exact inputName_ne_outputName j i same
      have absent := (meets.clear i).2
      rw [Dict.contains] at absent ⊢
      exact (congrArg Option.isSome (Feed.get?_declared_other other)).trans absent
    · intro i name between listed keeps
      have member := mem_of_getElem? listed
      have present := ready.tidy.outputs name member
      obtain ⟨array, known⟩ := Option.isSome_iff_exists.mp present
      obtain ⟨outer, made⟩ := meets.leaves name member array known
      have declared := enters.keeps present
      rw [Nat.zero_add]
      refine ⟨_, .intro ((keeps name ?_).trans (declared.trans known)) made, rfl⟩
      rw [Dict.contains, declared, known]
      rfl
  refine ⟨feeds, feeds', ready.check, ready.named, meets.apart, meets.counted, enters, leaves, ?_,
    closed_of_plans ready.toSound enters leaves⟩
  have paired := enters.length_eq
  have paired' := leaves.length_eq
  rw [length_zip, meets.counted, Nat.min_self] at paired
  have used := meets.used
  simp only [ne_eq, ← length_eq_zero_iff, ← paired, ← paired'] at used
  rw [Bool.and_eq_false_iff, isEmpty_eq_false_iff, isEmpty_eq_false_iff]
  simpa only [ne_eq, ← length_eq_zero_iff] using used

namespace Stages

theorem checkCopy_enters (stages : d.Stages specs feeds feeds') (sound : d.Sound)
    (fits : ∀ name ∈ d.inputs, ∀ array, d.graph.arrays.get? name = some array →
      Shape.Fits array.shape) :
    ∀ feed ∈ feeds, (d.routine feeds feeds').graph.checkNode 0 feed.node = .ok () := by
  intro feed member
  obtain ⟨i, listed⟩ := mem_iff_getElem?.mp member
  have inside : i < d.inputs.length := stages.length_feeds ▸ (List.getElem?_eq_some_iff.mp listed).1
  have input := getElem?_eq_getElem inside
  have given := getElem?_eq_getElem (stages.counted.symm ▸ inside : i < specs.length)
  obtain ⟨inner, outer, known, made, found⟩ := stages.enters_at input given sound
  cases listed.symm.trans found
  have shape := (inputArray_eq_ok made).1
  refine Graph.checkCopy_full (shape ▸ fits _ (mem_of_getElem? input) inner known) shape.symm
    (stages.get?_routine_input member) rfl
    (stages.get?_routine known) shape.symm

theorem checkCopy_leaves (stages : d.Stages specs feeds feeds') (sound : d.Sound)
    (fits : ∀ name ∈ d.outputs, ∀ array, d.graph.arrays.get? name = some array →
      Shape.Fits array.shape) :
    ∀ feed ∈ feeds', (d.routine feeds feeds').graph.checkNode 0 feed.node = .ok () := by
  intro feed member
  obtain ⟨i, listed⟩ := mem_iff_getElem?.mp member
  have inside : i < d.outputs.length :=
    stages.leaves.length_eq ▸ (List.getElem?_eq_some_iff.mp listed).1
  have output := getElem?_eq_getElem inside
  obtain ⟨inner, outer, known, made, found⟩ := stages.leaves_at output sound
  cases listed.symm.trans found
  have shape := (Descriptor.dense_eq_ok made).1
  exact Graph.checkCopy_full (fits _ (mem_of_getElem? output) inner known) shape
    (stages.get?_routine known) rfl
    (stages.get?_routine_output member) shape

theorem checkArguments_routine (stages : d.Stages specs feeds feeds') {names seen : List String}
    (listed : ∀ name ∈ names, name ∈ (d.routine feeds feeds').graph.args)
    (single : (seen.reverse ++ names).Nodup) :
    (d.routine feeds feeds').graph.checkArguments seen names = .ok () := by
  induction names generalizing seen with
  | nil => rfl
  | cons name rest ih =>
    rw [forall_mem_cons] at listed
    have fresh : name ∉ seen := by
      intro member
      exact (nodup_append.mp single).2.2 name (mem_reverse.mpr member) name mem_cons_self rfl
    have found : ∃ array, (d.routine feeds feeds').graph.arrays.get? name = some array := by
      have member := listed.1
      rw [stages.args_eq, mem_append, mem_map, mem_map] at member
      rcases member with ⟨feed, entering, rfl⟩ | ⟨feed, leaving, rfl⟩
      · exact ⟨_, stages.get?_routine_input entering⟩
      · exact ⟨_, stages.get?_routine_output leaving⟩
    obtain ⟨array, known⟩ := found
    have here : (d.routine feeds feeds').graph.checkArgument seen name = .ok () := by
      have known' : (d.routine feeds feeds').graph.array? name = some array := known
      rw [Graph.checkArgument, if_neg fresh, known']
      simp [exposed_of_mem known listed.1]
    refine bind_eq_ok.mpr ⟨(), here, ih listed.2 ?_⟩
    simpa using single

theorem checkSignature_routine (stages : d.Stages specs feeds feeds') (sound : d.Sound) :
    (d.routine feeds feeds').graph.checkSignature = .ok () := by
  have bounded := stages.bounded sound
  unfold Graph.checkSignature
  split
  · refine bind_eq_ok.mpr ⟨(), stages.checkArguments_routine (fun _ member => member) ?_,
      Outcome.forM_eq_ok.mpr ?_⟩
    · rw [stages.args_eq]
      exact stages.nodup_args
    · rintro ⟨name, array⟩ member
      have known := (sorted_routine sound.tidy.own.sorted).mem_entries.mp member
      simp only
      rw [if_neg]
      · rfl
      · rintro ⟨foreign, unlisted⟩
        exact unlisted ((bounded.foreign name array known).mp (by simpa using foreign))
  · rfl

-- What is left to check are the nodes and assignments of the draft.
structure Passes (d : Draft) (feeds feeds' : List Feed) : Prop where
  inputs : ∀ name ∈ d.inputs, ∀ array, d.graph.arrays.get? name = some array →
    Shape.Fits array.shape
  outputs : ∀ name ∈ d.outputs, ∀ array, d.graph.arrays.get? name = some array →
    Shape.Fits array.shape
  nodes : ∀ node ∈ d.graph.nodes, (d.routine feeds feeds').graph.checkNode 0 node = .ok ()
  bindings : ∀ e ∈ d.graph.edges, ∀ entry ∈ e.assignments.entries,
    (d.routine feeds feeds').graph.checkBinding entry.1 entry.2 = .ok ()
  closed : d.graph.freeSymbols = []

theorem check_routine (stages : d.Stages specs feeds feeds') (sound : d.Sound)
    (passes : Passes d feeds feeds') : (d.routine feeds feeds').check = .ok () := by
  have bounded := stages.bounded sound
  have role (role : String) (names : List String) (listed : ∀ name ∈ names,
    name ∈ (d.routine feeds feeds').graph.args) :
      (d.routine feeds feeds').checkRole role names = .ok () := by
    have none : names.filter (d.routine feeds feeds').isTransient = [] := by
      refine filter_eq_nil_iff.mpr fun name member => ?_
      obtain ⟨array, known⟩ := bounded.present name (listed name member)
      rw [Routine.isTransient, known]
      simp [(bounded.foreign name array known).mpr (listed name member)]
    simp [Routine.checkRole, none]
  refine Routine.check_eq_ok.mpr ⟨role _ _ fun name member => ?_, role _ _ fun name member => ?_,
    ?_, ?_⟩
  · rw [bounded.args]
    exact mem_append_left _ member
  · rw [bounded.args]
    exact mem_append_right _ member
  · rw [stages.freeSymbols_routine passes.closed]
    rfl
  · have inRange := sound.inRange_staged feeds feeds'
    refine ⟨⟨inRange.start, inRange.edges⟩, sound.connected_staged feeds feeds', ?_, ?_, ?_,
      stages.checkSignature_routine sound⟩
    · intro e member entry assigned
      rcases edges_routine d feeds feeds' member with old | ⟨none, -⟩
      · exact passes.bindings e old entry assigned
      · rw [none] at assigned
        cases assigned
    · intro node member
      rcases node_staged member with old | ⟨feed, listed, rfl⟩ | ⟨feed, listed, rfl⟩
      · exact passes.nodes node old
      · exact stages.checkCopy_enters sound passes.inputs feed listed
      · exact stages.checkCopy_leaves sound passes.outputs feed listed
    · intro name member
      have bound : d.graph.constants.contains name = true := by
        rw [Dict.contains, Option.isSome_iff_ne_none, ne_eq, Dict.get?, Dict.lookup_eq_none,
          not_not]
        exact member
      obtain ⟨array, known⟩ := Option.isSome_iff_exists.mp (sound.tidy.constants name bound)
      have known' : (d.routine feeds feeds').graph.array? name = some array :=
        stages.get?_routine known
      rw [Graph.checkConstant, known']
      simp [sound.tidy.transient name array known]

end Stages

end Draft

end TraceFlow
