import TraceFlow.Proofs.CheckedRoutines
import TraceFlow.Proofs.Compilation
import TraceFlow.Proofs.DescribedCalls
import TraceFlow.Proofs.RoutineRuns

set_option autoImplicit false

namespace TraceFlow

open Boundary Machine List

-- All arrays of a draft but its constants can be allocated and copied as a whole.
structure Draft.Roomy (d : Draft) : Prop where
  listable : ∀ name array, d.graph.arrays.get? name = some array →
    d.graph.constants.get? name = none → Shape.Listable array.shape
  variable_ : ∀ name ∈ d.inputs ++ d.outputs, d.graph.constants.get? name = none

namespace Draft.Stages

variable {d : Draft} {specs : List ArgSpec} {feeds feeds' : List Feed} {args : List Argument}
  {given memory after : Memory}

theorem succeeds_allocate (sound : d.Sound) (roomy : d.Roomy)
    (conforms : ∀ name t, given.get? name = some t → ∃ array,
      (d.routine feeds feeds').graph.arrays.get? name = some array ∧ t.elem = array.elem ∧
      t.shape = array.shape)
    (covers : ∀ name ∈ (d.routine feeds feeds').graph.args, ∃ t, given.get? name = some t) :
    (allocate (d.routine feeds feeds').graph given (d.routine feeds feeds').graph.arrays.entries
      {}).Succeeds := by
  refine Machine.succeeds_allocate.mpr ?_
  rintro ⟨name, array⟩ member
  have known := (sorted_routine sound.tidy.own.sorted).mem_entries.mp member
  cases constant : d.graph.constants.get? name with
  | some value =>
    exact ⟨value, by
      simp only [initial,
        show (d.routine feeds feeds').graph.constants.get? name = some value from constant]⟩
  | none =>
    simp only [initial, show (d.routine feeds feeds').graph.constants.get? name =
      none from constant]
    by_cases own : name ∈ (d.routine feeds feeds').graph.args
    · obtain ⟨t, found⟩ := covers name own
      obtain ⟨array', known', elem, shape⟩ := conforms name t found
      cases known.symm.trans known'
      rw [exposed_of_mem known own, found]
      simp [elem, shape]
    · have inner := get?_routine_own known own
      obtain ⟨-, t, -, made, -⟩ := (roomy.listable name array inner constant).ofDescriptor
        (sound.dense name array inner)
      rw [sound.tidy.transient name array inner, if_pos rfl]
      exact ⟨t, made⟩

theorem Started.succeeds_enter (started : Started d feeds feeds' args given memory)
    (stages : d.Stages specs feeds feeds') (sound : d.Sound)
    (roomy : d.Roomy) (counted : args.length = d.inputs.length)
    (elements : ∀ a ∈ args, a.elements.Succeeds) : (Feed.effect feeds memory {}).Succeeds := by
  refine (Feed.exists_effect (stages.separate_enters sound) memory {} (fun _ _ => True)
    fun feed member => ?_).imp fun _ ran => ran.1
  obtain ⟨i, listed⟩ := mem_iff_getElem?.mp member
  have inside : i < d.inputs.length := stages.length_feeds ▸ (List.getElem?_eq_some_iff.mp listed).1
  have argument := getElem?_eq_getElem (counted.symm ▸ inside : i < args.length)
  have given := getElem?_eq_getElem (stages.counted.symm ▸ inside : i < specs.length)
  obtain ⟨inner, outer, known, planned, found⟩ :=
    stages.enters_at (getElem?_eq_getElem inside) given sound
  cases listed.symm.trans found
  obtain ⟨shape, -, -⟩ := inputArray_eq_ok planned
  obtain ⟨t, made, -, shaped, source⟩ := started.argument stages sound listed argument
  have variable_ := roomy.variable_ _ (mem_append_left _ (getElem_mem inside))
  have strides := sound.dense _ inner known
  obtain ⟨u, blank, target⟩ := started.get?_memory stages sound ⟨known, variable_⟩
  obtain ⟨count, counted, few⟩ := roomy.listable _ inner known variable_
  obtain ⟨values, read⟩ := elements _ (mem_of_getElem? argument)
  rw [Argument.elements, made, ok_bind] at read
  obtain ⟨v, copied, -⟩ := (Effect.copied_blank strides counted few blank shaped shape).2 values
    read
  exact ⟨t, u, v, source, target, copied, trivial⟩

end Draft.Stages

namespace Draft.Stages

variable {d : Draft} {specs : List ArgSpec} {feeds feeds' : List Feed} {args : List Argument}
  {given memory after done : Memory} {feed : Feed}

variable (stages : d.Stages specs feeds feeds')

include stages

theorem exists_leaves (sound : d.Sound) (member : feed ∈ feeds') :
    ∃ name inner outer, name ∈ d.outputs ∧ d.graph.arrays.get? name = some inner ∧
    Descriptor.dense inner.shape inner.elem = .ok outer ∧
      feed = ⟨feed.array, outer, .full name inner, .full feed.array outer⟩ := by
  obtain ⟨i, listed⟩ := mem_iff_getElem?.mp member
  have inside : i < d.outputs.length :=
    stages.leaves.length_eq ▸ (List.getElem?_eq_some_iff.mp listed).1
  have output := getElem?_eq_getElem inside
  obtain ⟨inner, outer, known, made, found⟩ := stages.leaves_at output sound
  cases listed.symm.trans found
  exact ⟨_, inner, outer, mem_of_getElem? output, known, made, rfl⟩

theorem output_new (member : feed ∈ feeds') : d.graph.arrays.contains feed.array = false := by
  by_contra present
  rw [Bool.not_eq_false] at present
  have absent := stages.leaves.fresh.2 feed member
  rw [Dict.contains, stages.enters.keeps present] at absent
  rw [Dict.contains, absent] at present
  cases present

theorem separate_leaves (sound : d.Sound) : Feed.Separate feeds' := by
  have targets : (feeds'.map fun feed => feed.target.array) = feeds'.map Feed.array := by
    refine map_congr_left fun feed member => ?_
    obtain ⟨_, _, _, -, -, -, same⟩ := stages.exists_leaves sound member
    rw [same]
    rfl
  refine ⟨targets ▸ stages.leaves.fresh.1, fun feed member other member' same => ?_⟩
  obtain ⟨name, _, _, output, -, -, here⟩ := stages.exists_leaves sound member
  obtain ⟨_, _, _, -, -, -, there⟩ := stages.exists_leaves sound member'
  rw [here, there] at same
  have old := sound.tidy.outputs name output
  rw [show name = other.array from same, stages.output_new member'] at old
  cases old

theorem leave (sound : d.Sound) (roomy : d.Roomy)
    (holds : ∀ name ∈ d.outputs, ∀ array, d.graph.arrays.get? name = some array → ∃ u n,
      done.get? name = some u ∧ u.Dense n ∧ u.elem = array.elem ∧
      u.shape = array.shape) (blank : ∀ feed ∈ feeds', ∃ t, Tensor.ofDescriptor feed.outer = .ok t ∧
      done.get? feed.array = some t) : ∃ final, Feed.effect feeds' done {} = .ok final ∧
    ∀ (i : Nat) (name : String) (u : Tensor) (values : List Datum), d.outputs[i]? = some name →
      done.get? name = some u → u.values = .ok values → ∃ feed r, feeds'[i]? = some feed ∧
      final.get? feed.array = some r ∧ r.elem = u.elem ∧
        r.shape = u.shape ∧ r.values = .ok (values.map u.elem.recode) := by
  obtain ⟨final, copied, -, each⟩ := Feed.exists_effect (stages.separate_leaves sound) done {}
    (fun feed r => ∃ u, done.get? feed.source.array = some u ∧ r.elem = u.elem ∧ r.shape = u.shape ∧
      ∀ values, u.values = .ok values → r.values = .ok (values.map u.elem.recode))
        fun feed member => by
    obtain ⟨name, inner, outer, output, known, made, same⟩ := stages.exists_leaves sound member
    obtain ⟨u, n, found, dense, elem, shape⟩ := holds name output inner known
    obtain ⟨t, made', found'⟩ := blank feed member
    obtain ⟨shape', elem', strides', -⟩ := Descriptor.dense_eq_ok made
    obtain ⟨count, counted, few⟩ :=
      roomy.listable name inner known (roomy.variable_ name (mem_append_right _ output))
    obtain ⟨values, read⟩ := dense.exists_values
    rw [same] at made'
    obtain ⟨r, copied, -, typed, shaped, holds⟩ :=
      (Effect.copied_blank (by rw [strides', shape']) (shape' ▸ counted) few made' shape
        shape'.symm).2 values read
    rw [same]
    refine ⟨u, t, r, found, found', copied, u,
      found, by rw [typed, elem', elem], by rw [shaped, shape', shape], fun values' read' => ?_⟩
    cases read.symm.trans read'
    rw [holds, elem', elem]
  refine ⟨final, copied, fun i name u values output found read => ?_⟩
  obtain ⟨inner, outer, known, made, listed⟩ := stages.leaves_at output sound
  obtain ⟨r, left, u', found', elem, shape, values'⟩ := each _ (mem_of_getElem? listed)
  cases found.symm.trans found'
  exact ⟨_, r, listed, left, elem, shape, values' values read⟩

theorem exists_entered (sound : d.Sound) (roomy : d.Roomy) {program : Program}
    (accepted : Executable.accept ⟨program, (d.routine feeds feeds').graph, feeds.map Feed.array,
      feeds'.map Feed.array⟩ args = .ok given) (elements : ∀ a ∈ args, a.elements.Succeeds) :
    ∃ memory after, Entered d feeds feeds' args given memory after ∧
      ∀ feed ∈ feeds', ∃ t, Tensor.ofDescriptor feed.outer = .ok t ∧
      after.get? feed.array = some t := by
  have set := Executable.Accepted.of_accept accepted
  obtain ⟨memory, started⟩ := succeeds_allocate sound roomy (fun _ _ => set.typed)
    fun name member => set.present (stages.args_eq ▸ member)
  have starts := stages.started_of_call rfl rfl set started
  have counted' : args.length = d.inputs.length := by
    rw [set.counted, length_map, stages.length_feeds]
  obtain ⟨after, copied⟩ := starts.succeeds_enter stages sound roomy counted' elements
  have entered : Entered d feeds feeds' args given memory after := ⟨starts, copied⟩
  refine ⟨memory, after, entered, fun feed member => ?_⟩
  have known := stages.get?_routine_output member
  obtain ⟨-, -, apart⟩ := nodup_append.mp stages.nodup_args
  obtain ⟨_, t, known', made, found⟩ := set.outputs feed.array (mem_map_of_mem member) fun input =>
    apart _ input _ (mem_map_of_mem member) rfl
  cases known.symm.trans known'
  have new := stages.output_new member
  have other : feed.array ∉ d.inputs := fun listed => by
    rw [sound.tidy.inputs _ listed] at new
    cases new
  rw [entered.get?_other stages sound other]
  exact ⟨t, made, (entered.get?_exposed sound new known found).2.2⟩

end Draft.Stages

theorem Naming.not_return_append {mark : String}
    (unlike : ¬ "__return".toList <+: mark.toList ∧ ¬ mark.toList <+: "__return".toList)
    (rest : String) : "__return".isPrefixOf (mark ++ rest) = false := by
  rw [← Bool.not_eq_true]
  intro begins
  have begins := String.startsWith_string_iff.mp begins
  rw [String.toList_append] at begins
  rcases prefix_or_prefix_of_prefix begins (prefix_append _ _) with first | second
  · exact unlike.1 first
  · exact unlike.2 second

structure Draft.Between (d : Draft) (specs : List ArgSpec) (feeds feeds' : List Feed)
    (effects : List Effect) : Prop where
  stages : d.Stages specs feeds feeds'
  sound : d.Sound
  roomy : d.Roomy
  checked : (d.routine feeds feeds').check = .ok ()
  runs : ∃ program, Program.compile (d.routine feeds feeds').graph = .ok program ∧ ∀ given,
    program.call given = (do
    let memory ← allocate (d.routine feeds feeds').graph given
      (d.routine feeds feeds').graph.arrays.entries {}
    let after ← Feed.effect feeds memory {}
    let done ← effects.foldlM (fun memory effect => effect memory {}) after
    let final ← Feed.effect feeds' done {}
    return results given final)

namespace Draft.Between

variable {d : Draft} {specs : List ArgSpec} {feeds feeds' : List Feed} {effects : List Effect}
  {args : List Argument} {x : Executable}

theorem of_row (stages : d.Stages specs feeds feeds') (sound : d.Sound) (roomy : d.Roomy)
    (checked : (d.routine feeds feeds').check = .ok ())
    (acyclic : (d.routine feeds feeds').graph.Acyclic) {first : State} {rest : List State}
    (row : d.Row first rest) (made : (first :: rest).mapM Program.compileState = .ok effects) :
    d.Between specs feeds feeds' effects := by
  obtain ⟨-, -, -, valid⟩ := Routine.check_eq_ok.mp checked
  obtain ⟨program, compiled, runs⟩ := (row.both_compile acyclic valid.inRange).to_ok made
  refine ⟨stages, sound, roomy, checked, program, compiled, fun given => ?_⟩
  rw [runs]
  simp only [foldlM_cons, foldlM_append, foldlM_nil, bind_assoc, bind_pure]

theorem accept (between : d.Between specs feeds feeds' effects)
    (made : Executable.ofRoutine (d.routine feeds feeds') .cpu = .ok x)
    {fuel : Nat} {f : Lambda} (lowers : Lowers fuel f d)
    (declares : List.Forall₂ ArgSpec.Declares specs f.inputs)
    (described : describeCall args = .ok specs) (regular : ∀ a ∈ args, a.Regular)
    (elements : ∀ a ∈ args, a.elements.Succeeds) : (x.accept args).Succeeds := by
  obtain ⟨-, -, -, program, -, rfl⟩ := Executable.ofRoutine_eq_ok.mp made
  have stages := between.stages
  have receives := stages.receives lowers declares described regular program
  refine (receives.succeeds_accept fun a member => ?_).mpr fun name member array known => ?_
  · obtain ⟨values, read⟩ := elements a member
    exact (bind_eq_ok.mp read).imp fun _ => And.left
  · obtain ⟨feed, listed, rfl⟩ := mem_map.mp member
    cases known.symm.trans (stages.get?_routine_output listed)
    obtain ⟨name, inner, outer, output, known', dense, same⟩ :=
      stages.exists_leaves between.sound listed
    obtain ⟨shape, -, strides, -⟩ := Descriptor.dense_eq_ok dense
    have laid : feed.outer = outer := by rw [same]
    have listable := between.roomy.listable name inner known'
      (between.roomy.variable_ name (mem_append_right _ output))
    obtain ⟨-, t, -, made, -⟩ := (shape ▸ listable : Shape.Listable outer.shape).ofDescriptor
      (by rw [strides, shape])
    exact ⟨t, laid ▸ made⟩

theorem call (between : d.Between specs feeds feeds' effects)
    (made : Executable.ofRoutine (d.routine feeds feeds') .cpu = .ok x) {given : Memory}
    (accepted : x.accept args = .ok given) (elements : ∀ a ∈ args, a.elements.Succeeds) :
    ∃ memory after, Stages.Entered d feeds feeds' args given memory after ∧
      (∀ failure, effects.foldlM (fun memory effect => effect memory {}) after = .error failure →
        x.call args = .error failure) ∧
      ∀ done, effects.foldlM (fun memory effect => effect memory {}) after = .ok done →
        (∀ name, d.graph.arrays.contains name = false → done.get? name = after.get? name) →
        (∀ name ∈ d.outputs, ∀ array, d.graph.arrays.get? name = some array → ∃ u n,
          done.get? name = some u ∧ u.Dense n ∧ u.elem = array.elem ∧ u.shape = array.shape) →
        ∃ results, x.call args = .ok results ∧ List.Forall₂
          (fun name r => ∃ u values, done.get? name = some u ∧ u.values = .ok values ∧
            r.elem = u.elem ∧
          r.shape = u.shape ∧ r.values = .ok (values.map u.elem.recode)) d.outputs results := by
  obtain ⟨program, compiled, runs⟩ := between.runs
  obtain ⟨-, -, -, program', compiled', rfl⟩ := Executable.ofRoutine_eq_ok.mp made
  cases compiled.symm.trans compiled'
  change Executable.accept ⟨program, _, feeds.map Feed.array, feeds'.map Feed.array⟩ args =
    .ok given at accepted
  have stages := between.stages
  obtain ⟨memory, after, entered, blank⟩ :=
    stages.exists_entered between.sound between.roomy accepted elements
  have called : Executable.call ⟨program, (d.routine feeds feeds').graph, feeds.map Feed.array,
    feeds'.map Feed.array⟩ args = (do
      let done ← effects.foldlM (fun memory effect => effect memory {}) after
      let final ← Feed.effect feeds' done {}
      (feeds'.map Feed.array).mapM (Executable.readOutput (results given final))) := by
    rw [Executable.call_eq, accepted, ok_bind, runs, entered.allocated, ok_bind, entered.copied,
      ok_bind]
    simp only [bind_assoc, pure_bind]
  refine ⟨memory, after, entered, fun failure fails => ?_, fun done ran kept holds => ?_⟩
  · exact called.trans (by rw [fails]; rfl)
  obtain ⟨final, copied, left⟩ :=
    stages.leave between.sound between.roomy holds fun feed member => by
    rw [kept feed.array (stages.output_new member)]
    exact blank feed member
  have read (i : Nat) (name : String) (output : d.outputs[i]? = some name) :
    ∃ feed r, feeds'[i]? = some feed ∧
      Executable.readOutput (results given final) feed.array = .ok r ∧ ∃ u values,
      done.get? name = some u ∧ u.values = .ok values ∧ r.elem = u.elem ∧
        r.shape = u.shape ∧ r.values = .ok (values.map u.elem.recode) := by
    have member := mem_of_getElem? output
    obtain ⟨array, known⟩ := Option.isSome_iff_exists.mp (between.sound.tidy.outputs name member)
    obtain ⟨u, n, found, dense, -, -⟩ := holds name member array known
    obtain ⟨values, known'⟩ := dense.exists_values
    obtain ⟨feed, r, listed, result, elem, shape, values'⟩ :=
      left i name u values output found known'
    refine ⟨feed, r, listed, ?_, u, values, found, known', elem, shape, values'⟩
    obtain ⟨t, given'⟩ := (Executable.Accepted.of_accept accepted).present
      (mem_append_right _ (mem_map_of_mem (mem_of_getElem? listed)))
    rw [Executable.readOutput, get?_results, given', result]
    rfl
  have paired : feeds'.length = d.outputs.length := stages.leaves.length_eq
  obtain ⟨outputs, all⟩ :
    ((feeds'.map Feed.array).mapM (Executable.readOutput (results given final))).Succeeds := by
    refine Outcome.succeeds_mapM.mpr fun name member => ?_
    obtain ⟨feed, listed, rfl⟩ := mem_map.mp member
    obtain ⟨i, known⟩ := mem_iff_getElem?.mp listed
    have inside : i < d.outputs.length := paired ▸ (List.getElem?_eq_some_iff.mp known).1
    obtain ⟨feed', r, known', result, -⟩ := read i _ (getElem?_eq_getElem inside)
    cases known.symm.trans known'
    exact ⟨r, result⟩
  refine ⟨outputs, called.trans (by rw [ran, ok_bind, copied, ok_bind, all]), ?_⟩
  have each := mapM_eq_ok.mp all
  refine forall₂_iff_get.mpr ⟨by rw [← each.length_eq, length_map, paired], fun i inside inside' =>
    ?_⟩
  obtain ⟨feed, r, known, result, holds⟩ := read i _ (getElem?_eq_getElem inside)
  obtain ⟨r', listed, result'⟩ :=
    Outcome.exists_of_forall₂ each.flip
      (show (feeds'.map Feed.array)[i]? = some feed.array by rw [getElem?_map, known]; rfl)
  cases result.symm.trans result'
  have here : outputs[i] = r := by
    rw [getElem?_eq_getElem inside'] at listed
    exact Option.some.inj listed
  simp only [get_eq_getElem, here]
  exact holds

theorem exists_executable (between : d.Between specs feeds feeds' effects)
    (inner : ∀ name array, d.graph.arrays.get? name = some array →
      "__return".isPrefixOf name = false) :
    ∃ x, Executable.ofRoutine (d.routine feeds feeds') .cpu = .ok x := by
  obtain ⟨program, compiled, -⟩ := between.runs
  obtain ⟨-, -, closed, -⟩ := Routine.check_eq_ok.mp between.checked
  have stages := between.stages
  have bounded := stages.bounded between.sound
  have returns (name : String) (member : name ∈ (d.routine feeds feeds').graph.arrays.keys) :
    "__return".isPrefixOf name = false := by
    obtain ⟨⟨name, array⟩, listed, rfl⟩ := mem_map.mp member
    have known := (Stages.sorted_routine between.sound.tidy.own.sorted).mem_entries.mp listed
    by_cases own : name ∈ (d.routine feeds feeds').graph.args
    · rw [bounded.args, bounded.inputs, bounded.outputs, mem_append, mem_map, mem_map] at own
      rcases own with ⟨i, -, rfl⟩ | ⟨i, -, rfl⟩
      · exact Naming.not_return_append (by decide) _
      · exact Naming.not_return_append (by decide) _
    · exact inner name array (Stages.get?_routine_own known own)
  have used : ((d.routine feeds feeds').inputs.isEmpty &&
    (d.routine feeds feeds').outputs.isEmpty) = false := by
    change ((feeds.map Feed.array).isEmpty && (feeds'.map Feed.array).isEmpty) = false
    rw [isEmpty_map, isEmpty_map]
    exact stages.used
  exact ⟨_, Executable.ofRoutine_eq_ok.mpr ⟨used, returns, List.isEmpty_iff.mp closed, program,
    compiled, rfl⟩⟩

theorem evaluate_eq (between : d.Between specs feeds feeds' effects)
    (made : Executable.ofRoutine (d.routine feeds feeds') .cpu = .ok x) {f : Lambda}
    (lowered : (Lowering.lower .builtin f none (.new 0)).1 = .ok d)
    (options : Options) (args : List Argument) : f.evaluate specs options args = x.call args := by
  have staged : d.toRoutine specs true = .ok _ :=
    toRoutine_iff.mpr ⟨feeds, feeds', between.stages, rfl, fun _ => between.checked⟩
  have lowers := lowers_of_gives (gives_of_ends lowered)
  obtain ⟨x', optimized, optimizes⟩ := (lowers.both_optimized staged options).of_ok made
  rw [Lambda.evaluate, lowered, ok_bind, staged, ok_bind, ← bind_assoc, optimized]
  exact optimizes.call optimizes.runs args

end Draft.Between

end TraceFlow
