import TraceFlow.Proofs.Compilation
import TraceFlow.Proofs.Simplification
import TraceFlow.Proofs.StagedRuns

set_option autoImplicit false

namespace TraceFlow

open Machine Program List

variable {d : Draft} {feeds feeds' : List Feed}

theorem Effect.andThen_skip (f : Effect) : f.andThen skip = f := by
  funext memory symbols
  rw [Effect.andThen]
  cases f memory symbols <;> rfl

namespace Machine

variable {g : Graph} {effects : List Effect}

inductive Straight (g : Graph) (effects : List Effect) : Nat → List Effect → Prop where
  | last {id : Nat} {f : Effect} : effectOf effects id = .ok f → g.outEdges id = [] →
    Straight g effects id [f]
  | cons {id next : Nat} {f : Effect} {rest : List Effect} : effectOf effects id = .ok f →
    g.outEdges id = [{ source := id, target := next }] →
    Straight g effects next rest → Straight g effects id (f :: rest)

theorem Straight.settles {id : Nat} {fs : List Effect} (straight : Straight g effects id fs)
    (memory : Memory) (symbols : Symbols) :
    ∃ count, settle? g effects count id memory symbols = some
      (fs.foldlM (fun memory effect => effect memory symbols) memory) := by
  induction straight generalizing memory with
  | @last id f known none =>
    refine ⟨0, ?_⟩
    rw [settle?, turn, known, ok_bind, none]
    cases ran : f memory symbols <;> simp [ran, take]
  | @cons id next f rest known one _ ih =>
    cases ran : f memory symbols with
    | error failure => exact ⟨0, by rw [settle?, turn, known, ok_bind, ran, foldlM_cons, ran]; rfl⟩
    | ok after =>
      obtain ⟨count, settled⟩ := ih after
      refine ⟨count + 1, ?_⟩
      rw [settle?, turn, known, ok_bind, ran, ok_bind, one, take_plain rfl, foldlM_cons, ran,
        ok_bind]
      exact settled

theorem Straight.walk_eq {fs : List Effect} (straight : Straight g effects g.start fs)
    (acyclic : g.Acyclic) (inRange : g.InRange)
    (compiled : g.states.mapM compileState = .ok effects) (memory : Memory) (symbols : Symbols) :
    walk g effects (transitionLimit effects.length) g.start memory symbols = fs.foldlM
      (fun memory effect => effect memory symbols) memory := by
  obtain ⟨count, settled⟩ := straight.settles memory symbols
  rw [walk_eq_settle?]
  cases found : settle? g effects (transitionLimit effects.length) g.start memory symbols with
  | none => exact absurd found (settles_within_limit acyclic inRange compiled memory symbols)
  | some other =>
    have many := settle?_mono found (Nat.le_add_right _ count)
    rw [settle?_mono settled (Nat.le_add_left count (transitionLimit effects.length))] at many
    exact (Option.some.inj many).symm

theorem filter_steps (count i : Nat) :
    ((List.range count).map fun j => ({ source := j, target := j + 1 } : Edge)).filter
      (fun e => e.source = i) =
    if i < count then [{ source := i, target := i + 1 }] else [] := by
  induction count with
  | zero => rfl
  | succ count ih =>
    rw [range_succ, map_append, filter_append, ih, map_singleton, filter_singleton]
    rcases Nat.lt_trichotomy i count with less | rfl | more
    · simp [less, Nat.lt_succ_of_lt less, less.ne']
    · simp
    · simp [Nat.not_lt.mpr more.le, Nat.not_lt.mpr (Nat.succ_le_of_lt more), more.ne]

end Machine

def Block.row (first : State) (rest : List State) : Block :=
  ⟨first :: rest, (List.range rest.length).map fun i => { source := i, target := i + 1 },
    rest.length⟩

structure Draft.Row (d : Draft) (first : State) (rest : List State) : Prop where
  block : d.block = .row first rest
  start : d.start = 0

namespace Draft.Row

theorem states_routine (d : Draft) : (d.routine feeds feeds').graph.states = d.graph.states ++
    [⟨d.graph.name ++ "__start_state", feeds.map Feed.node⟩,
      ⟨"output_processing_stage", feeds'.map Feed.node⟩] := by
  rw [Draft.routine, Draft.left, Draft.entered, append_assoc]
  rfl

variable {first : State} {rest : List State} (row : d.Row first rest)

include row

theorem states : d.graph.states = first :: rest :=
  congrArg Block.states row.block

theorem edges : d.graph.edges = (List.range d.terminal).map fun i => { source := i, target :=
    i + 1 } := by
  have terminal : d.terminal = rest.length := congrArg Block.terminal row.block
  rw [terminal]
  exact congrArg Block.edges row.block

theorem length : d.graph.states.length = d.terminal + 1 := by
  have terminal : d.terminal = rest.length := congrArg Block.terminal row.block
  rw [row.states, terminal]
  rfl

theorem outEdges (i : Nat) : (d.routine feeds feeds').graph.outEdges i =
    if i < d.terminal then [{ source := i, target := i + 1 }] else if i = d.terminal then
    [{ source := i, target := d.terminal + 2 }]
    else if i = d.terminal + 1 then [{ source := i, target := 0 }] else [] := by
  have edges : (d.routine feeds feeds').graph.edges = (List.range d.terminal).map (fun i =>
    { source := i, target := i + 1 }) ++
      [{ source := d.terminal + 1, target := 0 }] ++ [{ source := d.terminal, target :=
        d.terminal + 2 }] := by
    rw [← row.edges, ← row.start, ← row.length]
    have next : d.terminal + 2 =
      (d.graph.states ++
        [(⟨d.graph.name ++ "__start_state", feeds.map Feed.node⟩ : State)]).length := by
      rw [length_append, row.length]
      rfl
    rw [next]
    rfl
  rw [Graph.outEdges, edges, filter_append, filter_append, filter_steps, filter_singleton,
    filter_singleton]
  split
  next less => simp [less.ne', (Nat.lt_succ_of_lt less).ne']
  next notLess =>
    split
    next same => simp [same]
    next other =>
      split
      next same => simp [same]
      next other' => simp [Ne.symm other, Ne.symm other']

theorem straight {fs : List Effect} (made : (first :: rest).mapM compileState = .ok fs) :
    Straight (d.routine feeds feeds').graph
    (fs ++ [Feed.effect feeds, Feed.effect feeds']) (d.terminal + 1)
      (Feed.effect feeds :: (fs ++ [Feed.effect feeds'])) := by
  have length : fs.length = d.terminal + 1 := by
    rw [← row.states] at made
    exact (length_of_compiled made).trans row.length
  have leaves : Straight (d.routine feeds feeds').graph
    (fs ++ [Feed.effect feeds, Feed.effect feeds']) (d.terminal + 2) [Feed.effect feeds'] :=
    .last (by simp [effectOf, length]) (by simp [row.outEdges])
  -- The states before are all passed; the induction is on the effects of those that are left.
  have passes (rest before : List Effect) (f : Effect) (all : before ++ f :: rest = fs) :
    Straight (d.routine feeds feeds').graph
      (fs ++ [Feed.effect feeds, Feed.effect feeds']) before.length
        (f :: rest ++ [Feed.effect feeds']) := by
    induction rest generalizing before f with
    | nil =>
      have final : before.length = d.terminal := by
        rw [← all, length_append] at length
        exact Nat.succ.inj length
      exact .cons (by simp [effectOf, ← all]) (by simp [row.outEdges, final]) leaves
    | cons next rest ih =>
      have less : before.length < d.terminal := by
        rw [← all, length_append, length_cons, length_cons] at length
        omega
      have later := ih (before ++ [f]) next (by rw [append_assoc]; exact all)
      rw [length_append] at later
      exact .cons (by simp [effectOf, ← all]) (by rw [row.outEdges, if_pos less]; rfl) later
  have known : effectOf (fs ++ [Feed.effect feeds, Feed.effect feeds']) (d.terminal + 1) =
    .ok (Feed.effect feeds) := by
    simp [effectOf, ← length]
  obtain ⟨f, rest, rfl⟩ := exists_cons_of_length_eq_add_one length
  exact .cons known (by simp [row.outEdges]) (passes rest [] f rfl)

theorem both_compile (acyclic : (d.routine feeds feeds').graph.Acyclic)
    (inRange : (d.routine feeds feeds').graph.InRange) :
    Outcome.Both (fun p fs => ∀ args, p.call args = (do
        let memory ← allocate (d.routine feeds feeds').graph args
          (d.routine feeds feeds').graph.arrays.entries {}
        let memory ← (Feed.effect feeds :: (fs ++ [Feed.effect feeds'])).foldlM
          (fun memory effect => effect memory {}) memory return results args memory))
      (compile (d.routine feeds feeds').graph) ((first :: rest).mapM compileState) := by
  have copies (label : String) (feeds : List Feed) :
    compileState ⟨label, feeds.map Feed.node⟩ = .ok (Feed.effect feeds) :=
    Feed.compileNodes_feeds feeds
  have compiled : compile (d.routine feeds feeds').graph = (do
      let fs ← (first :: rest).mapM compileState
      return ⟨(d.routine feeds feeds').graph, fs ++ [Feed.effect feeds, Feed.effect feeds']⟩) := by
    rw [compile_eq, states_routine, row.states, mapM_append]
    simp [copies]
  rw [compiled]
  cases made : (first :: rest).mapM compileState with
  | error failure => exact .fails _ _
  | ok fs =>
    refine .gives fun args => ?_
    have effects : (d.routine feeds feeds').graph.states.mapM compileState =
      .ok (fs ++ [Feed.effect feeds, Feed.effect feeds']) := by
      rw [states_routine, row.states, mapM_append, made]
      simp [copies]
    have start : (d.routine feeds feeds').graph.start = d.terminal + 1 := row.length
    have walk := (start ▸ row.straight made).walk_eq acyclic inRange effects
    simp only [Program.call, Program.run, walk]

end Draft.Row

section

variable {d : Draft} {specs : List ArgSpec} {feeds feeds' : List Feed} {x : Executable}
  {args : List Argument} {given memory : Memory}

theorem Draft.Stages.started_of_call (stages : d.Stages specs feeds feeds')
    (graph : x.graph = (d.routine feeds feeds').graph)
    (inputs : x.inputs = (d.routine feeds feeds').inputs) (accepted : x.Accepted args given)
    (started : allocate (d.routine feeds feeds').graph given
      (d.routine feeds feeds').graph.arrays.entries {} = .ok memory) :
    Draft.Stages.Started d feeds feeds' args given memory := by
  refine ⟨fun j name a named argument => ?_, started⟩
  have names : x.inputs = feeds.map Feed.array := inputs
  have distinct : ((x.inputs.zip args).map Prod.fst).Nodup := by
    rw [map_fst_zip (Nat.le_of_eq accepted.counted.symm), names]
    exact stages.enters.fresh.1
  have member : (name, a) ∈ x.inputs.zip args :=
    mem_of_getElem? (getElem?_zip_eq_some.mpr ⟨names ▸ named, argument⟩)
  obtain ⟨a', array, t, member', known, made, passes, found⟩ :=
    accepted.inputs name (of_mem_zip member).1
  obtain ⟨-, rfl⟩ := Prod.mk.inj (inj_on_of_nodup_map distinct member' member rfl)
  exact ⟨array, t, graph ▸ known, made, passes, found⟩

end

end TraceFlow
