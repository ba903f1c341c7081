import TraceFlow.Lowering.Boundary
import TraceFlow.Proofs.Blocks

set_option autoImplicit false

namespace TraceFlow

open Boundary List
open Builder (addArray_eq_ok)

variable {d : Draft} {validate : Bool} {r : Routine}

structure Feed where
  array : String
  outer : Descriptor
  source : Access
  target : Access

namespace Feed

def node (feed : Feed) : Node :=
  .copy feed.source feed.target

def declared (feeds : List Feed) (arrays : Dict Descriptor) : Dict Descriptor :=
  feeds.foldl (fun arrays feed => arrays.insert feed.array feed.outer) arrays

inductive Enters (i : Nat) (arrays : Dict Descriptor) : String × ArgSpec → Feed → Prop
  | intro {name : String} {arg : ArgSpec} {array outer : Descriptor} :
    arrays.get? name = some array → inputArray i array arg = .ok outer →
    Enters i arrays (name, arg) ⟨inputName i, outer, .full (inputName i) outer, .full name array⟩

inductive Leaves (i : Nat) (arrays : Dict Descriptor) : String → Feed → Prop
  | intro {name : String} {array outer : Descriptor} : arrays.get? name = some array →
    Descriptor.dense array.shape array.elem = .ok outer →
    Leaves i arrays name ⟨outputName i, outer, .full name array, .full (outputName i) outer⟩

-- Copies one after the other, each with an array that is new.
inductive Plans {α : Type} (plan : Nat → Dict Descriptor → α → Feed → Prop) :
    Nat → Dict Descriptor → List α → List Feed → Prop
  | nil (i : Nat) (arrays : Dict Descriptor) : Plans plan i arrays [] []
  | cons {i : Nat} {arrays : Dict Descriptor} {a : α} {rest : List α} {feed : Feed}
    {feeds : List Feed} : plan i arrays a feed →
    arrays.contains feed.array = false →
    Plans plan (i + 1) (arrays.insert feed.array feed.outer) rest feeds →
    Plans plan i arrays (a :: rest) (feed :: feeds)

end Feed

def Draft.fed (d : Draft) (states : List State) (label : String) (nodes : List Node)
    (feeds : List Feed) : Draft :=
  { d with graph := { d.graph with
      arrays := Feed.declared feeds d.graph.arrays
      states := states ++ [⟨label, nodes ++ feeds.map Feed.node⟩] } }

def Draft.entered (d : Draft) (feeds : List Feed) : Draft :=
  { d with
    graph := { d.graph with
      arrays := Feed.declared feeds d.graph.arrays
      states := d.graph.states ++ [⟨d.graph.name ++ "__start_state", feeds.map Feed.node⟩]
      edges := d.graph.edges ++ [{ source := d.graph.states.length, target := d.start }]
      start := d.graph.states.length }
    start := d.graph.states.length
    inputs? := some (feeds.map Feed.array) }

-- The draft with a state of copies behind its terminal state.
def Draft.left (d : Draft) (feeds : List Feed) : Draft :=
  { d with
    graph := { d.graph with
      arrays := Feed.declared feeds d.graph.arrays
      states := d.graph.states ++ [⟨"output_processing_stage", feeds.map Feed.node⟩]
      edges := d.graph.edges ++ [{ source := d.terminal, target := d.graph.states.length }] }
    terminal := d.graph.states.length
    outputs? := some (feeds.map Feed.array) }

namespace Boundary

variable {d d' : Draft}

variable {u : Unit}

theorem gives_lift {α : Type} {o : Outcome α} {a : α} : Gives (lift o) d a d' ↔ o = .ok a ∧
    d' = d :=
  gives_outcome

theorem gives_lift_bind {α β : Type} {o : Outcome α} {next : α → DraftM β} {c : β} :
    Gives (lift o >>= next) d c d' ↔ ∃ a, o = .ok a ∧ Gives (next a) d c d' :=
  gives_outcome_bind

theorem gives_changeGraph {change : Graph → Outcome Graph} : Gives (changeGraph change) d u d' ↔
    ∃ g, change d.graph = .ok g ∧ d' = { d with graph := g } := by
  rw [changeGraph, gives_get_bind, gives_lift_bind]
  simp only [gives_set]

theorem gives_addState {label : String} {id : Nat} :
    Gives (addState label) d id d' ↔ id = d.graph.states.length ∧
    d' = { d with graph := d.graph.addState label } :=
  gives_iff rfl

theorem gives_inner {role name : String} {array : Descriptor} : Gives (inner role name) d array d' ↔
    d.graph.array? name = some array ∧ d' = d := by
  rw [inner, gives_get_bind]
  cases d.graph.array? name with
  | none => simp [gives_refuse]
  | some known => simp [gives_pure, eq_comm]

section

variable {states : List State} {label : String} {nodes : List Node}

theorem gives_feed {α : Type} (feed : Feed) (last : d.graph.states = states ++ [⟨label, nodes⟩])
    {next : DraftM α} {a : α} : Gives (do
        changeGraph fun g => g.addArray feed.array feed.outer
        addCopy states.length feed.source feed.target
        next) d a d' ↔ d.graph.arrays.contains feed.array = false ∧
      Gives next (d.fed states label nodes [feed]) a d' := by
  have built : ({ d with graph := { d.graph with
      arrays := d.graph.arrays.insert feed.array feed.outer
      states := d.graph.states.modify states.length (·.add feed.node) } } :
        Draft) = d.fed states label nodes [feed] := by
    rw [last, modify_last]
    rfl
  simp only [addCopy, gives_bind, gives_changeGraph, addArray_eq_ok, addNode_eq_ok]
  constructor
  · rintro ⟨_, _, ⟨_, ⟨free, rfl⟩, rfl⟩, _, _, ⟨_, ⟨-, rfl⟩, rfl⟩, given⟩
    exact ⟨free, built ▸ given⟩
  · rintro ⟨free, given⟩
    refine ⟨(), _, ⟨_, ⟨free, rfl⟩, rfl⟩, (), _, ⟨_, ⟨by simp [last], rfl⟩, rfl⟩, built ▸ given⟩

theorem fed_nil (last : d.graph.states = states ++ [⟨label, nodes⟩]) : d.fed states label nodes
    [] = d := by
  rw [Draft.fed, map_nil, append_nil, ← last, Feed.declared, foldl_nil, Graph.eta]

theorem fed_cons (feed : Feed) (feeds : List Feed) :
    (d.fed states label nodes [feed]).fed states label
      (nodes ++ [feed.node]) feeds = d.fed states label nodes (feed :: feeds) := by
  simp [Draft.fed, Feed.declared]

theorem gives_addInputs {i : Nat} {pairs : List (String × ArgSpec)} {names : List String}
    (last : d.graph.states = states ++ [⟨label, nodes⟩]) :
    Gives (addInputs states.length i pairs) d names d' ↔
      ∃ feeds, Feed.Plans Feed.Enters i d.graph.arrays pairs feeds ∧ names = feeds.map Feed.array ∧
      d' = d.fed states label nodes feeds := by
  induction pairs generalizing d d' i nodes names with
  | nil =>
    rw [addInputs, gives_pure]
    constructor
    · rintro ⟨rfl, rfl⟩
      exact ⟨[], .nil i _, rfl, (fed_nil last).symm⟩
    · rintro ⟨_, ⟨⟩, rfl, rfl⟩
      exact ⟨rfl, fed_nil last⟩
  | cons pair others ih =>
    obtain ⟨name, arg⟩ := pair
    rw [addInputs]
    constructor
    · intro steps
      obtain ⟨array, _, found, next⟩ := gives_bind.mp steps
      obtain ⟨known, rfl⟩ := gives_inner.mp found
      obtain ⟨outer, made, given⟩ := gives_lift_bind.mp next
      obtain ⟨free, given⟩ := (gives_feed ⟨inputName i, outer, .full (inputName i) outer,
        .full name array⟩ last).mp given
      obtain ⟨later, _, added, given⟩ := gives_bind.mp given
      obtain ⟨feeds, plans, rfl, rfl⟩ := (ih rfl).mp added
      obtain ⟨rfl, rfl⟩ := gives_pure.mp given
      exact ⟨_, .cons (.intro known made) free plans, rfl, fed_cons _ _⟩
    · rintro ⟨_, plans, rfl, rfl⟩
      cases plans with
      | @cons _ _ _ _ feed feeds here free plans =>
        cases here with
        | intro known made =>
          refine .bind (gives_inner.mpr ⟨known, rfl⟩) (.bind (gives_lift.mpr ⟨made, rfl⟩)
            ((gives_feed ⟨_, _, _, _⟩ last).mpr ⟨free, ?_⟩))
          exact .bind ((ih rfl).mpr ⟨feeds, plans, rfl, rfl⟩)
            (gives_pure.mpr ⟨rfl, (fed_cons _ _).symm⟩)

theorem gives_addOutputs {i : Nat} {outputs names : List String}
    (last : d.graph.states = states ++ [⟨label, nodes⟩]) :
    Gives (addOutputs states.length i outputs) d names d' ↔
      ∃ feeds, Feed.Plans Feed.Leaves i d.graph.arrays outputs feeds ∧
      names = feeds.map Feed.array ∧ d' = d.fed states label nodes feeds := by
  induction outputs generalizing d d' i nodes names with
  | nil =>
    rw [addOutputs, gives_pure]
    constructor
    · rintro ⟨rfl, rfl⟩
      exact ⟨[], .nil i _, rfl, (fed_nil last).symm⟩
    · rintro ⟨_, ⟨⟩, rfl, rfl⟩
      exact ⟨rfl, fed_nil last⟩
  | cons name others ih =>
    rw [addOutputs]
    constructor
    · intro steps
      obtain ⟨array, _, found, next⟩ := gives_bind.mp steps
      obtain ⟨known, rfl⟩ := gives_inner.mp found
      obtain ⟨outer, made, given⟩ := gives_lift_bind.mp next
      obtain ⟨free, given⟩ := (gives_feed ⟨outputName i, outer, .full name array,
        .full (outputName i) outer⟩ last).mp given
      obtain ⟨later, _, added, given⟩ := gives_bind.mp given
      obtain ⟨feeds, plans, rfl, rfl⟩ := (ih rfl).mp added
      obtain ⟨rfl, rfl⟩ := gives_pure.mp given
      exact ⟨_, .cons (.intro known made) free plans, rfl, fed_cons _ _⟩
    · rintro ⟨_, plans, rfl, rfl⟩
      cases plans with
      | @cons _ _ _ _ feed feeds here free plans =>
        cases here with
        | intro known made =>
          refine .bind (gives_inner.mpr ⟨known, rfl⟩) (.bind (gives_lift.mpr ⟨made, rfl⟩)
            ((gives_feed ⟨_, _, _, _⟩ last).mpr ⟨free, ?_⟩))
          exact .bind ((ih rfl).mpr ⟨feeds, plans, rfl, rfl⟩)
            (gives_pure.mpr ⟨rfl, (fed_cons _ _).symm⟩)

end

theorem gives_addInputStage {args : List ArgSpec} :
    Gives (addInputStage args) d u d' ↔ ∃ feeds, Feed.Plans Feed.Enters 0 d.graph.arrays
      (d.inputs.zip args) feeds ∧ d' = d.entered feeds := by
  have added {d' : Draft} {names : List String} :=
    @gives_addInputs { d with graph := d.graph.addState (d.graph.name ++ "__start_state") } d'
    d.graph.states (d.graph.name ++ "__start_state") [] 0 (d.inputs.zip args) names rfl
  simp only [addInputStage, addEdge, gives_bind, gives_get, gives_addState, gives_changeGraph,
    gives_modify]
  constructor
  · rintro ⟨_, _, ⟨rfl, rfl⟩, _, _, ⟨rfl, rfl⟩, _, _, given, _, _, ⟨_, ⟨⟩, rfl⟩, rfl⟩
    obtain ⟨feeds, plans, rfl, rfl⟩ := added.mp given
    exact ⟨feeds, plans, rfl⟩
  · rintro ⟨feeds, plans, rfl⟩
    exact ⟨d, d, ⟨rfl, rfl⟩, _, _, ⟨rfl, rfl⟩, _, _, added.mpr ⟨feeds, plans, rfl, rfl⟩, (), _,
      ⟨_, rfl, rfl⟩, rfl⟩

theorem gives_addOutputStage : Gives addOutputStage d u d' ↔
    ∃ feeds, Feed.Plans Feed.Leaves 0 d.graph.arrays d.outputs feeds ∧ d' = d.left feeds := by
  have added {d' : Draft} {names : List String} :=
    @gives_addOutputs { d with graph := d.graph.addState "output_processing_stage" } d'
    d.graph.states "output_processing_stage" [] 0 d.outputs names rfl
  simp only [addOutputStage, addEdge, gives_bind, gives_get, gives_addState, gives_changeGraph,
    gives_modify]
  constructor
  · rintro ⟨_, _, ⟨rfl, rfl⟩, _, _, ⟨rfl, rfl⟩, _, _, given, _, _, ⟨_, ⟨⟩, rfl⟩, rfl⟩
    obtain ⟨feeds, plans, rfl, rfl⟩ := added.mp given
    exact ⟨feeds, plans, rfl⟩
  · rintro ⟨feeds, plans, rfl⟩
    exact ⟨d, d, ⟨rfl, rfl⟩, _, _, ⟨rfl, rfl⟩, _, _, added.mpr ⟨feeds, plans, rfl, rfl⟩, (), _,
      ⟨_, rfl, rfl⟩, rfl⟩

end Boundary

def Descriptor.exposed (d : Descriptor) : Descriptor :=
  { d with transient := false }

theorem expose_eq_ok {g g' : Graph} {names : List String} :
    g.expose names = .ok g' ↔ (∀ name ∈ names, g.arrays.contains name = true) ∧
      g' = { g with arrays := names.foldl (fun arrays name => arrays.adjust name
        Descriptor.exposed) g.arrays } := by
  induction names generalizing g with
  | nil =>
    cases g
    rw [Graph.expose]
    simp only [not_mem_nil, false_implies, implies_true, foldl_nil, true_and, Except.ok.injEq,
      eq_comm]
  | cons name rest ih =>
    rw [Graph.expose]
    by_cases known : g.arrays.contains name = true
    · rw [if_pos known, ih]
      have keeps : ∀ other, (g.arrays.adjust name fun d => { d with transient := false }).contains
        other = g.arrays.contains other := by
        intro other
        rw [Dict.contains, Dict.get?_adjust, Dict.contains]
        by_cases same : other = name <;> simp [same]
      simp only [keeps, mem_cons, forall_eq_or_imp, known, true_and, foldl_cons]
      rfl
    · simp [known, refuse]

structure Finished (d : Draft) (inputs outputs : List String) (g : Graph) : Prop where
  checked : d.check = .ok ()
  reads : d.inputs? = some inputs
  writes : d.outputs? = some outputs
  used : (inputs.isEmpty && outputs.isEmpty) = false
  exposed : d.graph.expose (distinct (inputs ++ outputs)) = .ok g

theorem signature_eq_ok {inputs outputs : List String} : d.signature = .ok (inputs, outputs) ↔
    d.inputs? = some inputs ∧ d.outputs? = some outputs := by
  rw [Draft.signature]
  cases d.inputs? <;> cases d.outputs? <;> simp [refuse]

theorem finish_eq_ok : d.finish validate = .ok r ↔ ∃ inputs outputs g, Finished d inputs outputs g ∧
      r = { graph := { g with args := distinct (inputs ++ outputs) }, inputs, outputs } ∧
      (validate = true → r.check = .ok ()) := by
  rw [Draft.finish]
  constructor
  · intro finished
    obtain ⟨_, checked, finished⟩ := bind_eq_ok.mp finished
    obtain ⟨⟨inputs, outputs⟩, signature, finished⟩ := bind_eq_ok.mp finished
    obtain ⟨used, finished⟩ := unless_eq_ok.mp finished
    obtain ⟨g, exposed, finished⟩ := bind_eq_ok.mp finished
    obtain ⟨reads, writes⟩ := signature_eq_ok.mp signature
    refine ⟨inputs, outputs, g, ⟨checked, reads, writes, by simpa using used, exposed⟩, ?_⟩
    cases validate with
    | false =>
      cases finished
      exact ⟨rfl, by simp⟩
    | true =>
      obtain ⟨_, valid, finished⟩ := bind_eq_ok.mp finished
      cases finished
      exact ⟨rfl, fun _ => valid⟩
  · rintro ⟨inputs, outputs, g, ⟨checked, reads, writes, used, exposed⟩, rfl, valid⟩
    refine bind_eq_ok.mpr ⟨(), checked, bind_eq_ok.mpr ⟨(inputs, outputs),
      signature_eq_ok.mpr ⟨reads, writes⟩, ?_⟩⟩
    refine unless_eq_ok.mpr ⟨by simp [used], bind_eq_ok.mpr ⟨g, exposed, ?_⟩⟩
    cases validate with
    | false => rfl
    | true => exact bind_eq_ok.mpr ⟨(), valid rfl, rfl⟩

variable {feeds : List Feed} {arrays : Dict Descriptor} {name : String} {feed : Feed} {j : Nat}

namespace Feed

theorem get?_declared_other (other : name ∉ feeds.map Feed.array) :
    (declared feeds arrays).get? name = arrays.get? name := by
  induction feeds generalizing arrays with
  | nil => rfl
  | cons feed rest ih =>
    rw [map_cons, mem_cons, not_or] at other
    exact (ih other.2).trans (by rw [Dict.get?_insert, if_neg other.1])

theorem sorted_declared (feeds : List Feed) (sorted : arrays.Sorted) :
    (declared feeds arrays).Sorted := by
  induction feeds generalizing arrays with
  | nil => exact sorted
  | cons feed rest ih => exact ih (Dict.sorted_insert sorted _ _)

namespace Plans

variable {α : Type} {plan : Nat → Dict Descriptor → α → Feed → Prop} {i : Nat}
  {arrays : Dict Descriptor} {items : List α} {feeds : List Feed}

variable (plans : Plans plan i arrays items feeds)

include plans

theorem fresh : (feeds.map Feed.array).Nodup ∧ ∀ feed ∈ feeds,
    arrays.contains feed.array = false := by
  induction plans with
  | nil => exact ⟨nodup_nil, by simp⟩
  | @cons i arrays a rest feed feeds _ free _ ih =>
    obtain ⟨distinct, new⟩ := ih
    have apart (other : Feed) (member : other ∈ feeds) : other.array ≠ feed.array ∧
      arrays.contains other.array = false := by
      have absent := new other member
      rw [Dict.contains, Dict.get?_insert] at absent
      split at absent
      · cases absent
      next away => exact ⟨away, absent⟩
    refine ⟨?_, ?_⟩
    · rw [map_cons, nodup_cons]
      refine ⟨fun member => ?_, distinct⟩
      obtain ⟨other, listed, same⟩ := mem_map.mp member
      exact (apart other listed).1 same
    · rintro other member
      rcases mem_cons.mp member with rfl | later
      · exact free
      · exact (apart other later).2

theorem get?_declared (member : feed ∈ feeds) :
    (declared feeds arrays).get? feed.array = some feed.outer := by
  induction plans with
  | nil => cases member
  | @cons i arrays a rest first feeds _ free later ih =>
    rcases mem_cons.mp member with rfl | there
    · have new : feed.array ∉ feeds.map Feed.array := by
        intro listed
        obtain ⟨other, known, same⟩ := mem_map.mp listed
        have absent := later.fresh.2 other known
        rw [same, Dict.contains, Dict.get?_insert, if_pos rfl] at absent
        cases absent
      exact (get?_declared_other new).trans (by rw [Dict.get?_insert, if_pos rfl])
    · exact ih there

theorem keeps (present : arrays.contains name = true) :
    (declared feeds arrays).get? name = arrays.get? name := by
  refine get?_declared_other fun listed => ?_
  obtain ⟨feed, member, rfl⟩ := mem_map.mp listed
  rw [plans.fresh.2 feed member] at present
  cases present

theorem getElem? {a : α} (listed : items[j]? = some a) :
    ∃ feed between, feeds[j]? = some feed ∧ plan (i + j) between a feed ∧
      ∀ name, arrays.contains name = true → between.get? name = arrays.get? name := by
  induction plans generalizing j with
  | nil => cases listed
  | @cons i arrays first rest feed feeds here free _ ih =>
    cases j with
    | zero =>
      cases listed
      exact ⟨feed, arrays, rfl, here, fun _ _ => rfl⟩
    | succ j =>
      obtain ⟨found, between, known, planned, same⟩ := ih listed
      refine ⟨found, between,
        known, by rwa [Nat.add_assoc, Nat.add_comm 1 j] at planned, fun name present => ?_⟩
      have away : name ≠ feed.array := by
        rintro rfl
        rw [free] at present
        cases present
      have kept : (arrays.insert feed.array feed.outer).get? name = arrays.get? name := by
        rw [Dict.get?_insert, if_neg away]
      rw [← kept]
      exact same name (by rw [Dict.contains, kept]; exact present)

theorem length_eq : feeds.length = items.length := by
  induction plans with
  | nil => rfl
  | cons _ _ _ ih => exact congrArg (· + 1) ih

end Plans

end Feed

def exposedArrays (names : List String) (arrays : Dict Descriptor) : Dict Descriptor :=
  names.foldl (fun arrays name => arrays.adjust name Descriptor.exposed) arrays

theorem get?_exposedArrays (names : List String) (arrays : Dict Descriptor) (a : String) :
    (exposedArrays names arrays).get? a = if a ∈ names then
    (arrays.get? a).map Descriptor.exposed else arrays.get? a := by
  induction names generalizing arrays with
  | nil => simp [exposedArrays]
  | cons name rest ih =>
    have step : exposedArrays (name :: rest) arrays = exposedArrays rest
      (arrays.adjust name Descriptor.exposed) := rfl
    have twice (d : Descriptor) : d.exposed.exposed = d.exposed := rfl
    rw [step, ih, Dict.get?_adjust]
    by_cases here : a = name
    · by_cases there : a ∈ rest <;> cases arrays.get? a <;> simp [here, twice, here ▸ there]
    · simp [here]

theorem sorted_exposedArrays (names : List String) (sorted : arrays.Sorted) :
    (exposedArrays names arrays).Sorted := by
  induction names generalizing arrays with
  | nil => exact sorted
  | cons name rest ih => exact ih (Dict.sorted_adjust sorted name _)

def Draft.routine (d : Draft) (feeds feeds' : List Feed) : Routine where
  graph := { ((d.entered feeds).left feeds').graph with
    arrays := exposedArrays (distinct (feeds.map Feed.array ++ feeds'.map Feed.array))
      (Feed.declared feeds' (Feed.declared feeds d.graph.arrays))
    args := distinct (feeds.map Feed.array ++ feeds'.map Feed.array) }
  inputs := feeds.map Feed.array
  outputs := feeds'.map Feed.array

-- What the stages of a draft need, apart from its nodes.
structure Draft.Stages (d : Draft) (args : List ArgSpec) (feeds feeds' : List Feed) : Prop where
  checked : d.check = .ok ()
  named : ∃ inputs outputs, d.inputs? = some inputs ∧ d.outputs? = some outputs
  apart : ∀ name ∈ d.outputs, name ∉ d.inputs
  counted : args.length = d.inputs.length
  enters : Feed.Plans Feed.Enters 0 d.graph.arrays (d.inputs.zip args) feeds
  leaves : Feed.Plans Feed.Leaves 0 (Feed.declared feeds d.graph.arrays) d.outputs feeds'
  used : (feeds.isEmpty && feeds'.isEmpty) = false
  closed : ((d.entered feeds).left feeds').check = .ok ()

section

variable {d : Draft} {args : List ArgSpec} {feeds feeds' : List Feed}

theorem gives_addStages {u : Unit} {staged : Draft} : Gives (addStages args) d u staged ↔
    (∃ inputs outputs, d.inputs? = some inputs ∧ d.outputs? = some outputs) ∧
    (∀ name ∈ d.outputs, name ∉ d.inputs) ∧ args.length = d.inputs.length ∧
      ∃ feeds feeds', Feed.Plans Feed.Enters 0 d.graph.arrays (d.inputs.zip args) feeds ∧
        Feed.Plans Feed.Leaves 0 (Feed.declared feeds d.graph.arrays) d.outputs feeds' ∧
        staged = (d.entered feeds).left feeds' := by
  unfold addStages
  constructor
  · intro steps
    obtain ⟨_, _, found, next⟩ := gives_bind.mp steps
    obtain ⟨rfl, rfl⟩ := gives_get.mp found
    obtain ⟨⟨inputs, outputs⟩, _, lifted, given⟩ := gives_bind.mp next
    obtain ⟨signature, rfl⟩ := Boundary.gives_lift.mp lifted
    obtain ⟨reads, writes⟩ := signature_eq_ok.mp signature
    dsimp only at given
    split at given
    · exact absurd given gives_refuse_bind
    next apart =>
      obtain ⟨counted, given⟩ := gives_unless.mp given
      obtain ⟨_, first, entered, left⟩ := gives_bind.mp given
      obtain ⟨feeds, plans, rfl⟩ := gives_addInputStage.mp entered
      obtain ⟨feeds', plans', rfl⟩ := gives_addOutputStage.mp left
      refine ⟨⟨inputs, outputs, reads, writes⟩, ?_, ?_, feeds, feeds', plans, plans', rfl⟩
      · simpa [Draft.inputs, Draft.outputs, reads, writes] using apart
      · simpa [Draft.inputs, reads] using counted
  · rintro ⟨⟨inputs, outputs, reads, writes⟩, apart, counted, feeds, feeds', plans, plans', rfl⟩
    refine .bind (gives_get.mpr ⟨rfl, rfl⟩)
      (.bind (Boundary.gives_lift.mpr ⟨signature_eq_ok.mpr ⟨reads, writes⟩, rfl⟩) ?_)
    have none : outputs.find? (fun name => name ∈ inputs) = none := by
      simpa [Draft.inputs, Draft.outputs, reads, writes] using apart
    simp only [none]
    refine gives_unless.mpr ⟨?_, .next (gives_addInputStage.mpr ⟨feeds, plans, rfl⟩)
      (gives_addOutputStage.mpr ⟨feeds', plans', rfl⟩)⟩
    simpa [Draft.inputs, reads] using counted

theorem toRoutine_iff : d.toRoutine args validate = .ok r ↔
    ∃ feeds feeds', d.Stages args feeds feeds' ∧ r = d.routine feeds feeds' ∧
    (validate = true → r.check = .ok ()) := by
  rw [Draft.toRoutine, bind_eq_ok]
  constructor
  · rintro ⟨_, checked, rest⟩
    rcases ran : addStages args d with ⟨outcome, staged⟩
    rw [ran] at rest
    obtain ⟨_, rfl, finished⟩ := bind_eq_ok.mp rest
    obtain ⟨named, apart, counted, feeds, feeds', enters, leaves, rfl⟩ := gives_addStages.mp ran
    obtain ⟨_, _, g, ⟨closed, ⟨⟩, ⟨⟩, used, exposed⟩, rfl, valid⟩ := finish_eq_ok.mp finished
    obtain ⟨-, rfl⟩ := expose_eq_ok.mp exposed
    exact ⟨feeds, feeds', ⟨checked, named, apart, counted, enters,
      leaves, by simpa using used, closed⟩, rfl, valid⟩
  · rintro ⟨feeds, feeds', stages, rfl, valid⟩
    have present (name : String)
      (member : name ∈ distinct (feeds.map Feed.array ++ feeds'.map Feed.array)) :
        (Feed.declared feeds' (Feed.declared feeds d.graph.arrays)).contains name = true := by
      rw [mem_distinct, mem_append, mem_map, mem_map] at member
      rcases member with ⟨feed, listed, rfl⟩ | ⟨feed, listed, rfl⟩
      · have here := stages.enters.get?_declared listed
        have known : (Feed.declared feeds d.graph.arrays).contains feed.array = true := by
          rw [Dict.contains, here]; rfl
        rw [Dict.contains, stages.leaves.keeps known, here]
        rfl
      · rw [Dict.contains, stages.leaves.get?_declared listed]
        rfl
    have ran : Gives (addStages args) d () ((d.entered feeds).left feeds') :=
      gives_addStages.mpr ⟨stages.named, stages.apart, stages.counted, feeds, feeds', stages.enters,
        stages.leaves, rfl⟩
    refine ⟨(), stages.checked, ?_⟩
    rw [ran]
    exact finish_eq_ok.mpr ⟨_, _, _,
      ⟨stages.closed, rfl, rfl, by simpa using stages.used, expose_eq_ok.mpr ⟨present, rfl⟩⟩, rfl,
      valid⟩

theorem Draft.edges_staged (d : Draft) (feeds feeds' : List Feed) :
    ((d.entered feeds).left feeds').graph.edges = d.graph.edges ++
    [{ source := d.graph.states.length, target := d.start },
      { source := d.terminal, target := d.graph.states.length + 1 }] := by
  simp [entered, left]

theorem Draft.length_staged (d : Draft) (feeds feeds' : List Feed) :
    ((d.entered feeds).left feeds').graph.states.length = d.graph.states.length + 2 := by
  simp [entered, left]

theorem Draft.mem_edges_staged {e : Edge}
    (member : e ∈ ((d.entered feeds).left feeds').graph.edges) : e ∈ d.graph.edges ∨
    e = { source := d.graph.states.length, target := d.start } ∨
    e = { source := d.terminal, target := d.graph.states.length + 1 } := by
  simpa [edges_staged] using member

end

end TraceFlow
