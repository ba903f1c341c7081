import TraceFlow.Proofs.ClosedGraphs

set_option autoImplicit false

namespace TraceFlow

open Boundary Builder List

variable {names : List String} {d : Draft} {atoms : List Atom}

theorem distinct_filter (keeps : String → Bool) (names : List String) :
    distinct (names.filter keeps) = (distinct names).filter keeps := by
  induction names with
  | nil => rfl
  | cons name rest ih =>
    by_cases kept : keeps name = true
    · simp only [filter_cons_of_pos kept, distinct, ih, filter_filter, Bool.and_comm]
    · have others : (fun other => keeps other && decide (other ≠ name)) = keeps := by
        funext other
        by_cases same : other = name
        · simp [same, Bool.eq_false_of_not_eq_true kept]
        · simp [same]
      simp only [filter_cons_of_neg kept, distinct, ih, filter_filter, others]

-- By induction on the length: what is left after the first name is filtered before its own repeats
-- are.
theorem distinct_eq_eraseDups (names : List String) : distinct names = names.eraseDups :=
  match names with
  | [] => rfl
  | name :: rest => by
    have fewer : (rest.filter fun other => other ≠ name).length ≤ rest.length :=
      length_filter_le _ _
    rw [distinct, ← distinct_filter, distinct_eq_eraseDups (rest.filter fun other => other ≠ name),
      eraseDups_cons]
    congr 3
    funext other
    by_cases same : other = name <;> simp [same]
  termination_by names.length
  decreasing_by exact Nat.lt_succ_of_le fewer

theorem distinct_of_nodup (single : names.Nodup) : distinct names = names := by
  induction names with
  | nil => rfl
  | cons name rest ih =>
    obtain ⟨new, single⟩ := nodup_cons.mp single
    rw [distinct, ih single, filter_eq_self.mpr]
    intro other member
    exact decide_eq_true fun same => new (same ▸ member)

-- The nodes of a state copy whole arrays, one after the other.
def Graph.CopiesWhole (g : Graph) (sources targets : List String) (s : State) : Prop :=
  sources.length = targets.length ∧ s.nodes.length = sources.length ∧
    ∀ (i : Nat) (source target : String), sources[i]? = some source → targets[i]? = some target →
      ∃ read written, g.array? source = some read ∧ g.array? target = some written ∧
        s.nodes[i]? = some (.copy (.full source read) (.full target written))

structure Routine.Bounded (r : Routine) (d : Draft) (specs : List ArgSpec) : Prop where
  counted : specs.length = d.inputs.length
  inputs : r.inputs = (List.range d.inputs.length).map fun i => "__jace_input_" ++ i.repr
  outputs : r.outputs = (List.range d.outputs.length).map fun i => "__jace_output_" ++ i.repr
  args : r.graph.args = r.inputs ++ r.outputs
  present : ∀ name ∈ r.graph.args, ∃ array, r.graph.array? name = some array
  foreign : ∀ name array, r.graph.array? name = some array →
    (array.transient = false ↔ name ∈ r.graph.args)
  entry : ∃ s, r.graph.state r.graph.start = .ok s ∧ r.graph.CopiesWhole r.inputs d.inputs s
  exit : ∃ last s, r.graph.sinks = [last] ∧ r.graph.state last = .ok s ∧
    r.graph.CopiesWhole d.outputs r.outputs s
  laidOut : ∀ (i : Nat) (name : String) (spec : ArgSpec), d.inputs[i]? = some name →
    specs[i]? = some spec →
    ∃ inner outer, d.graph.array? name = some inner ∧ r.graph.array? ("__jace_input_" ++ i.repr) =
    some outer ∧
      outer.shape = inner.shape ∧ outer.elem = inner.elem ∧ outer.storage = spec.storage ∧
      ∀ strides, spec.strides? = some strides → strides.length = inner.rank →
      outer.strides = strides

namespace Feed.Plans

variable {α : Type} {plan : Nat → Dict Descriptor → α → Feed → Prop} {i : Nat}
  {arrays : Dict Descriptor} {items : List α} {feeds : List Feed}

theorem numbered {name : Nat → String} (plans : Plans plan i arrays items feeds)
    (each : ∀ i arrays item feed, plan i arrays item feed → feed.array = name i) :
    feeds.map Feed.array = (List.range' i items.length).map name := by
  induction plans with
  | nil => rfl
  | cons here _ _ ih => rw [map_cons, ih, each _ _ _ _ here, length_cons, range'_succ, map_cons]

end Feed.Plans

theorem Draft.sinks_of_check (checked : d.check = .ok ()) : d.graph.sinks = [d.terminal] := by
  rw [Draft.check] at checked
  obtain ⟨-, checked⟩ := unless_eq_ok.mp checked
  exact not_not.mp (unless_eq_ok.mp checked).1

namespace Draft.Stages

variable {d : Draft} {specs : List ArgSpec} {feeds feeds' : List Feed}

variable {name : String} {array : Descriptor}

theorem nodup_args (stages : d.Stages specs feeds feeds') :
    (feeds.map Feed.array ++ feeds'.map Feed.array).Nodup := by
  refine nodup_append'.mpr ⟨stages.enters.fresh.1, stages.leaves.fresh.1, ?_⟩
  intro name entering leaving
  obtain ⟨feed, member, rfl⟩ := mem_map.mp entering
  obtain ⟨feed', member', same⟩ := mem_map.mp leaving
  have free := stages.leaves.fresh.2 feed' member'
  rw [same, Dict.contains, stages.enters.get?_declared member] at free
  cases free

theorem args_eq (stages : d.Stages specs feeds feeds') :
    (d.routine feeds feeds').graph.args = feeds.map Feed.array ++ feeds'.map Feed.array :=
  distinct_of_nodup stages.nodup_args

theorem get?_routine_output (stages : d.Stages specs feeds feeds') {feed : Feed}
    (member : feed ∈ feeds') :
    (d.routine feeds feeds').graph.arrays.get? feed.array = some feed.outer.exposed := by
  have listed : feed.array ∈ distinct (feeds.map Feed.array ++ feeds'.map Feed.array) := by
    rw [mem_distinct]
    exact mem_append_right _ (mem_map_of_mem member)
  rw [Draft.routine, get?_exposedArrays, if_pos listed, stages.leaves.get?_declared member]
  rfl

theorem get?_routine_own (known : (d.routine feeds feeds').graph.arrays.get? name = some array)
    (own : name ∉ (d.routine feeds feeds').graph.args) : d.graph.arrays.get? name = some array := by
  have absent : name ∉ feeds.map Feed.array ++ feeds'.map Feed.array :=
    fun member => own ((mem_distinct _).mpr member)
  rw [Draft.routine, get?_exposedArrays, if_neg ((mem_distinct _).not.mpr absent)] at known
  rw [mem_append, not_or] at absent
  rwa [Feed.get?_declared_other absent.2, Feed.get?_declared_other absent.1] at known

theorem exposed_of_mem (known : (d.routine feeds feeds').graph.arrays.get? name = some array)
    (argument : name ∈ (d.routine feeds feeds').graph.args) : array.transient = false := by
  have listed : name ∈ distinct (feeds.map Feed.array ++ feeds'.map Feed.array) := argument
  rw [Draft.routine, get?_exposedArrays, if_pos listed, Option.map_eq_some_iff] at known
  obtain ⟨_, -, rfl⟩ := known
  rfl

theorem edges_routine (d : Draft) (feeds feeds' : List Feed) {e : Edge}
    (member : e ∈ ((d.entered feeds).left feeds').graph.edges) :
    e ∈ d.graph.edges ∨ e.assignments = {} ∧ e.guard? = none := by
  rcases mem_edges_staged member with old | rfl | rfl
  · exact .inl old
  · exact .inr ⟨rfl, rfl⟩
  · exact .inr ⟨rfl, rfl⟩

theorem freeSymbols_routine (stages : d.Stages specs feeds feeds')
    (closed : d.graph.freeSymbols = []) : (d.routine feeds feeds').graph.freeSymbols = [] := by
  refine eq_nil_iff_forall_not_mem.mpr fun symbol free => ?_
  obtain ⟨used, unassigned⟩ := Graph.mem_freeSymbols.mp free
  have kept (e : Edge) (member : e ∈ d.graph.edges) : e ∈ (d.routine feeds feeds').graph.edges := by
    change e ∈ ((d.entered feeds).left feeds').graph.edges
    rw [edges_staged]
    exact mem_append_left _ member
  refine eq_nil_iff_forall_not_mem.mp closed symbol
    (Graph.mem_freeSymbols.mpr ⟨?_, fun e member => unassigned e (kept e member)⟩)
  have copies {feeds : List Feed} (complete : ∀ node ∈ feeds.map Feed.node,
    node.Complete fun _ => False) {feed : Feed} (listed : feed ∈ feeds) :
      symbol ∉ feed.node.symbols := by
    have whole : feed.source.symbols = [] ∧ feed.target.symbols = [] :=
      complete feed.node (mem_map_of_mem listed)
    simp [Feed.node, Node.symbols, whole]
  rcases used with declared | ⟨e, member, guards⟩ | ⟨node, member, uses⟩
  · exact .inl declared
  · rcases edges_routine d feeds feeds' member with old | ⟨-, plain⟩
    · exact .inr (.inl ⟨e, old, guards⟩)
    · rw [Edge.guardSymbols, plain] at guards
      cases guards
  · rcases node_staged member with old | ⟨feed, listed, rfl⟩ | ⟨feed, listed, rfl⟩
    · exact .inr (.inr ⟨node, old, uses⟩)
    · exact absurd uses (copies (stages.enters.complete fun _ _ _ _ => Feed.Enters.closed) listed)
    · exact absurd uses (copies (stages.leaves.complete fun _ _ _ _ => Feed.Leaves.closed) listed)

variable (stages : d.Stages specs feeds feeds')

include stages

theorem copiesWhole_entry (sound : d.Sound) (label : String) :
    (d.routine feeds feeds').graph.CopiesWhole
      (feeds.map Feed.array) d.inputs ⟨label, feeds.map Feed.node⟩ := by
  refine ⟨by rw [length_map, stages.length_feeds], by rw [length_map, length_map], ?_⟩
  intro i source target entering input
  obtain ⟨spec, given⟩ : ∃ spec, specs[i]? = some spec := by
    have inside := (List.getElem?_eq_some_iff.mp input).1
    exact ⟨_, getElem?_eq_getElem (stages.counted ▸ inside)⟩
  obtain ⟨inner, outer, known, -, feed⟩ := stages.enters_at input given sound
  obtain rfl : inputName i = source := by simpa [feed] using entering
  exact ⟨outer.exposed, inner, stages.get?_routine_input (mem_of_getElem? feed),
    stages.get?_routine known, by simp [feed, Feed.node]; rfl⟩

theorem copiesWhole_exit (sound : d.Sound) (label : String) :
    (d.routine feeds feeds').graph.CopiesWhole d.outputs
      (feeds'.map Feed.array) ⟨label, feeds'.map Feed.node⟩ := by
  refine ⟨by rw [length_map, stages.leaves.length_eq],
    by rw [length_map, stages.leaves.length_eq], ?_⟩
  intro i source target output leaving
  obtain ⟨inner, outer, known, -, feed⟩ := stages.leaves_at output sound
  obtain rfl : outputName i = target := by simpa [feed] using leaving
  exact ⟨inner, outer.exposed, stages.get?_routine known,
    stages.get?_routine_output (mem_of_getElem? feed), by simp [feed, Feed.node]; rfl⟩

theorem bounded (sound : d.Sound) : (d.routine feeds feeds').Bounded d specs where
  counted := stages.counted
  inputs := by
    have numbered := stages.enters.numbered fun i _ _ _ (enters : Feed.Enters i _ _ _) => by
      cases enters; exact rfl
    rw [length_zip, stages.counted, Nat.min_self, ← range_eq_range'] at numbered
    exact numbered
  outputs := by
    have numbered := stages.leaves.numbered fun i _ _ _ (leaves : Feed.Leaves i _ _ _) => by
      cases leaves; exact rfl
    rw [← range_eq_range'] at numbered
    exact numbered
  args := stages.args_eq
  present := by
    intro name member
    rw [stages.args_eq, mem_append, mem_map, mem_map] at member
    rcases member with ⟨feed, listed, rfl⟩ | ⟨feed, listed, rfl⟩
    · exact ⟨_, stages.get?_routine_input listed⟩
    · exact ⟨_, stages.get?_routine_output listed⟩
  foreign := by
    intro name array known
    refine ⟨fun foreign => ?_, exposed_of_mem known⟩
    by_contra own
    rw [sound.tidy.transient name array (get?_routine_own known own)] at foreign
    cases foreign
  entry :=
    ⟨⟨d.graph.name ++ "__start_state",
      _⟩,
      by simp [Draft.routine, Draft.left, Draft.entered, Graph.state],
      stages.copiesWhole_entry sound _⟩
  exit := by
    have sinks : (d.routine feeds feeds').graph.sinks = [d.graph.states.length + 1] :=
      (sinks_of_check stages.closed).trans (by simp [Draft.left, Draft.entered])
    exact ⟨_, ⟨"output_processing_stage", _⟩,
      sinks,
      by simp [Draft.routine, Draft.left, Draft.entered, Graph.state],
      stages.copiesWhole_exit sound _⟩
  laidOut := by
    intro i name spec input given
    obtain ⟨inner, outer, known, made, feed⟩ := stages.enters_at input given sound
    refine ⟨inner, outer.exposed, known, stages.get?_routine_input (mem_of_getElem? feed),
      (inputArray_eq_ok made).1, (inputArray_eq_ok made).2.1, ?_⟩
    obtain ⟨-, _, dense, -, -, -, rfl⟩ := inputArray_iff.mp made
    refine ⟨rfl, fun strides told ranked => ?_⟩
    simp only [Descriptor.exposed, told, if_pos ranked]

end Draft.Stages

structure Routine.Exposes (r : Routine) (d : Draft) : Prop where
  inputs : d.inputs? = some r.inputs
  outputs : d.outputs? = some r.outputs
  args : r.graph.args = (r.inputs ++ r.outputs).eraseDups
  arrays : ∀ name, r.graph.array? name = (d.graph.array? name).map fun array =>
    { array with transient := decide (name ∉ r.graph.args) }
  graph : r.graph = { d.graph with arrays := r.graph.arrays, args := r.graph.args }

theorem Routine.Exposes.of_finish {validate : Bool} {r : Routine}
    (finished : d.finish validate = .ok r) (sound : d.Sound) : r.Exposes d := by
  obtain ⟨inputs, outputs, g, made, rfl, -⟩ := finish_eq_ok.mp finished
  obtain ⟨-, rfl⟩ := expose_eq_ok.mp made.exposed
  refine ⟨made.reads, made.writes, distinct_eq_eraseDups _, fun name => ?_, rfl⟩
  have exposed := get?_exposedArrays (distinct (inputs ++ outputs)) d.graph.arrays name
  refine exposed.trans ?_
  rw [Graph.array?]
  cases known : d.graph.arrays.get? name with
  | none => simp
  | some array =>
    by_cases argument : name ∈ distinct (inputs ++ outputs)
    · simp [argument, Descriptor.exposed]
    · simp [argument, ← sound.tidy.transient name array known]

-- What is known of the draft of a lowered function when its routine is made.
structure Draft.Ready (d : Draft) : Prop extends d.Sound where
  named : ∃ inputs outputs, d.inputs? = some inputs ∧ d.outputs? = some outputs

theorem LowersBody.inputs_eq {lower : Lambda → Option String → LowerM Draft} {f : Lambda}
    {start : Draft} {mapped : Nat} {outputs : List String}
    (body : LowersBody lower f start mapped outputs d) : ∃ inputs, d.inputs? = some inputs ∧
    inputs.length = f.inputs.length := by
  refine body.preserves (P := fun d => ∃ inputs, d.inputs? = some inputs ∧
    inputs.length = f.inputs.length) ?_ ?_
  · exact fun _ creates => ⟨_, rfl, creates.length_eq⟩
  · exact fun step ⟨inputs, named, counted⟩ => ⟨inputs, step.keeps.1.trans named, counted⟩

section

variable {fuel : Nat} {f : Lambda} (lowers : Lowers fuel f d)

include lowers

theorem Draft.Ready.of_lowers : d.Ready := by
  refine ⟨lowers.sound, ?_⟩
  obtain ⟨title, mapped, outputs, body, lowered, rfl⟩ := lowers
  obtain ⟨inputs, named, -⟩ := lowered.inputs_eq
  exact ⟨inputs, outputs, named, rfl⟩

theorem Lowers.length_inputs : d.inputs.length = f.inputs.length := by
  obtain ⟨title, mapped, outputs, body, lowered, rfl⟩ := lowers
  obtain ⟨inputs, named, counted⟩ := lowered.inputs_eq
  rw [Draft.inputs, named]
  exact counted

theorem Lowers.input {j : Nat} {v : Var} (listed : f.inputs[j]? = some v) :
    ∃ name array, d.inputs[j]? = some name ∧ d.graph.arrays.get? name = some array ∧
    Descriptor.dense (arrayShape v) v.elem = .ok array := by
  obtain ⟨title, mapped, outputs, d, lowered, rfl⟩ := lowers
  refine lowered.preserves (P := fun d => ∃ name array, d.inputs[j]? = some name ∧
    d.graph.arrays.get? name = some array ∧
    Descriptor.dense (arrayShape v) v.elem = .ok array) (fun _ creates => ?_)
      fun step ⟨name, array, named, known, dense⟩ => ?_
  · obtain ⟨name, array, named, -, known, dense⟩ := creates.getElem? listed
    exact ⟨name, array, named, known, dense⟩
  · exact ⟨name, array, by rwa [Draft.inputs, step.keeps.1], step.keeps.2 name array known, dense⟩

end

theorem Draft.Ready.finish (ready : d.Ready) (used : d.inputs ≠ [] ∨ d.outputs ≠ []) :
    ∃ r, d.finish false = .ok r := by
  obtain ⟨inputs, outputs, reads, writes⟩ := ready.named
  have inputs_eq : d.inputs = inputs := by rw [Draft.inputs, reads]; rfl
  have outputs_eq : d.outputs = outputs := by rw [Draft.outputs, writes]; rfl
  have listed : (inputs.isEmpty && outputs.isEmpty) = false := by
    rw [inputs_eq, outputs_eq] at used
    cases inputs <;> cases outputs <;> simp_all
  have present (name : String) (member : name ∈ distinct (inputs ++ outputs)) :
    d.graph.arrays.contains name = true := by
    rcases mem_append.mp ((mem_distinct _).mp member) with input | output
    · exact ready.tidy.inputs name (inputs_eq ▸ input)
    · exact ready.tidy.outputs name (outputs_eq ▸ output)
  exact ⟨_, finish_eq_ok.mpr ⟨inputs, outputs, _, ⟨ready.check, reads, writes, listed,
    expose_eq_ok.mpr ⟨present, rfl⟩⟩, rfl, by simp⟩⟩

namespace Lowering

theorem calling_convention {f : Lambda} {name? : Option String} {b b' : Builder} {d : Draft}
    (lowered : Gives (lower .builtin f name?) b d b') :
    (∀ specs validate r, d.toRoutine specs validate = .ok r →
      r.Bounded d specs ∧ r.graph.freeSymbols = [] ∧
      (validate = true → r.check = .ok () ∧ r.graph.check = .ok ()) ∧
      (r.check = .ok () ↔ d.toRoutine specs true = .ok r)) ∧
    (d.inputs ≠ [] ∨ d.outputs ≠ [] → ∃ r, d.finish false = .ok r) ∧
    ∀ validate r, d.finish validate = .ok r → r.Exposes d := by
  have lowers := lowers_of_gives lowered
  have ready := Draft.Ready.of_lowers lowers
  refine ⟨?_, ready.finish, fun validate r finished => .of_finish finished ready.toSound⟩
  intro specs validate r made
  obtain ⟨feeds, feeds', stages, rfl, checked⟩ := toRoutine_iff.mp made
  refine ⟨stages.bounded ready.toSound, stages.freeSymbols_routine lowers.freeSymbols,
    fun asked => ?_, fun valid => ?_, fun validated => ?_⟩
  · obtain ⟨-, -, -, valid⟩ := Routine.check_eq_ok.mp (checked asked)
    exact ⟨checked asked, Graph.check_eq_ok.mpr valid⟩
  · exact toRoutine_iff.mpr ⟨feeds, feeds', stages, rfl, fun _ => valid⟩
  · obtain ⟨_, _, -, -, valid⟩ := toRoutine_iff.mp validated
    exact valid rfl

def misshaped : Lambda :=
  let var (id extent : Nat) : Var := ⟨id, .traced, [extent], .int64⟩
  ⟨[var 0 2], [], [], [], [⟨"reshape", [.var (var 0 2)], [var 1 3],
    Dict.ofList [("new_sizes", .ints [3]), ("dimensions", .none)], false⟩], [.var (var 1 3)]⟩

theorem not_calling_convention_unvalidated :
    let specs : List ArgSpec := [⟨[2], .int64, none, .cpuHeap⟩]
    ∃ d b r, Gives (lower .builtin misshaped none) (.new 0) d b ∧ d.toRoutine specs false = .ok r ∧
    ¬ r.check = .ok () ∧ ¬ r.graph.check = .ok () := by
  intro specs
  have made : (do
      let d ← (lower .builtin misshaped none (.new 0)).1
      let r ← d.toRoutine specs false
      return (decide r.check.Succeeds, decide r.graph.check.Succeeds)) = Except.ok (false,
        false) := by decide +kernel
  rcases given : lower .builtin misshaped none (.new 0) with ⟨outcome, b⟩
  rw [given] at made
  obtain ⟨d, lowered, rest⟩ := bind_eq_ok.mp made
  obtain ⟨r, finished, checks⟩ := bind_eq_ok.mp rest
  obtain rfl : outcome = .ok d := lowered
  obtain ⟨routine, graph⟩ := Prod.mk.inj (Except.ok.inj checks)
  exact ⟨d, b, r, given, finished, fun valid => of_decide_eq_false routine ⟨(), valid⟩,
    fun valid => of_decide_eq_false graph ⟨(), valid⟩⟩

def donating : Lambda :=
  let var (id : Nat) : Var := ⟨id, .traced, [2], .int64⟩
  ⟨[var 0, var 1], [], [], [], [⟨"neg", [.var (var 1)], [var 2], {}, false⟩],
    [.var (var 1), .var (var 2)]⟩

theorem calling_convention_branching :
    let specs : List ArgSpec := [⟨[], .int64, none, .cpuHeap⟩, ⟨[2], .int64, some [3], .gpuGlobal⟩]
    (∃ d b r, Gives (lower .builtin branching none) (.new 0) d b ∧ d.toRoutine specs true = .ok r ∧
      r.Bounded d specs ∧
      r.graph.freeSymbols = [] ∧ r.check = .ok () ∧ r.graph.check = .ok ()) ∧
    ∃ d b r, Gives (lower .builtin donating none) (.new 0) d b ∧ d.finish true = .ok r ∧
      r.Exposes d ∧ r.graph.args = ["a", "b", "c"] := by
  intro specs
  have first : Outcome.Succeeds (do
      let d ← (lower .builtin branching none (.new 0)).1
      d.toRoutine specs true) := by decide +kernel
  have second : (do
      let d ← (lower .builtin donating none (.new 0)).1
      return (← d.finish true).graph.args) = Except.ok ["a", "b", "c"] := by decide +kernel
  constructor
  · rcases given : lower .builtin branching none (.new 0) with ⟨outcome, b⟩
    rw [given] at first
    obtain ⟨r, made⟩ := first
    obtain ⟨d, lowered, made⟩ := bind_eq_ok.mp made
    obtain rfl : outcome = .ok d := lowered
    obtain ⟨bounded, closed, checked, -⟩ := (calling_convention given).1 specs true r made
    exact ⟨d, b, r, given, made, bounded, closed, checked rfl⟩
  · rcases given : lower .builtin donating none (.new 0) with ⟨outcome, b⟩
    rw [given] at second
    obtain ⟨d, lowered, made⟩ := bind_eq_ok.mp second
    obtain ⟨r, finished, args⟩ := bind_eq_ok.mp made
    obtain rfl : outcome = .ok d := lowered
    exact ⟨d, b, r, given, finished, (calling_convention given).2.2 true r finished,
      Except.ok.inj args⟩

end Lowering

end TraceFlow
