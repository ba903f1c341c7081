import TraceFlow.Proofs.CallArguments
import TraceFlow.Proofs.CanonicalDrafts

set_option autoImplicit false

namespace TraceFlow

open Boundary Machine List

variable {array outer : Descriptor}

variable {feeds : List Feed} {arrays : Dict Descriptor} {name : String} {feed : Feed} {j : Nat}
  {a : Argument} {arg : ArgSpec} {array : Descriptor}

namespace Machine

variable {entries : List (String × Descriptor)}

theorem get?_allocate {g : Graph} {args memory after : Memory}
    (ran : allocate g args entries memory = .ok after) (distinct : (entries.map Prod.fst).Nodup) :
    (∀ name, name ∉ entries.map Prod.fst → after.get? name = memory.get? name) ∧
      ∀ name d, (name, d) ∈ entries → ∃ value, initial g args name d = .ok value ∧
      after.get? name = some value := by
  induction entries generalizing memory with
  | nil =>
    cases ran
    exact ⟨fun _ _ => rfl, by simp⟩
  | cons entry rest ih =>
    obtain ⟨first, d⟩ := entry
    rw [allocate] at ran
    obtain ⟨value, made, later⟩ := bind_eq_ok.mp ran
    rw [map_cons, nodup_cons] at distinct
    obtain ⟨others, each⟩ := ih later distinct.2
    refine ⟨fun name away => ?_, fun name d' member => ?_⟩
    · rw [map_cons, mem_cons, not_or] at away
      rw [others name away.2, Dict.get?_insert, if_neg away.1]
    · rcases mem_cons.mp member with same | there
      · cases same
        exact ⟨value, made, by rw [others _ distinct.1, Dict.get?_insert, if_pos rfl]⟩
      · exact each name d' there

theorem succeeds_allocate {g : Graph} {args memory : Memory} :
    (allocate g args entries memory).Succeeds ↔ ∀ entry ∈ entries,
    (initial g args entry.1 entry.2).Succeeds := by
  induction entries generalizing memory with
  | nil => simp [allocate]
  | cons entry rest ih =>
    rw [allocate, forall_mem_cons]
    cases initial g args entry.1 entry.2 with
    | error failure => simp
    | ok value => simpa using ih

end Machine

namespace Feed

variable {rest : List Feed}

def effect (feeds : List Feed) : Effect := fun memory symbols =>
  feeds.foldlM (fun memory feed => Effect.copy feed.source feed.target memory symbols) memory

theorem compileNodes_feeds (feeds : List Feed) : Program.compileNodes (feeds.map Feed.node) = .ok
    (effect feeds) := by
  induction feeds with
  | nil => rfl
  | cons feed rest ih =>
    rw [map_cons, Program.compileNodes_cons, ih]
    rfl

-- Copies that read no array which another of them writes.
structure Separate (feeds : List Feed) : Prop where
  targets : (feeds.map fun feed => feed.target.array).Nodup
  sources : ∀ feed ∈ feeds, ∀ other ∈ feeds, feed.source.array ≠ other.target.array

theorem Separate.tail (separate : Separate (feed :: rest)) : Separate rest :=
  ⟨(nodup_cons.mp separate.targets).2, fun first member other member' =>
    separate.sources first (mem_cons_of_mem _ member) other (mem_cons_of_mem _ member')⟩

theorem Separate.get?_insert {other : Feed} (separate : Separate (feed :: rest))
    (member : other ∈ rest) (memory : Memory)
    (v : Tensor) : (memory.insert feed.target.array v).get? other.source.array =
    memory.get? other.source.array ∧ (memory.insert feed.target.array v).get? other.target.array =
      memory.get? other.target.array := by
  have away := separate.sources other (mem_cons_of_mem _ member) feed mem_cons_self
  have fresh : other.target.array ≠ feed.target.array := fun same =>
    (nodup_cons.mp separate.targets).1 (mem_map.mpr ⟨other, member, same⟩)
  rw [Dict.get?_insert, if_neg away, Dict.get?_insert, if_neg fresh]
  exact ⟨rfl, rfl⟩

theorem get?_effect (separate : Separate feeds) {memory after : Memory} {symbols : Symbols}
    (ran : effect feeds memory symbols = .ok after) :
    (∀ name, (∀ feed ∈ feeds, feed.target.array ≠ name) → after.get? name = memory.get? name) ∧
      ∀ feed ∈ feeds, ∃ t u v, memory.get? feed.source.array = some t ∧
      memory.get? feed.target.array = some u ∧
        Effect.copied feed.source feed.target symbols t u = .ok v ∧
        after.get? feed.target.array = some v := by
  induction feeds generalizing memory with
  | nil =>
    cases ran
    exact ⟨fun _ _ => rfl, by simp⟩
  | cons feed rest ih =>
    rw [effect, foldlM_cons] at ran
    obtain ⟨between, first, later⟩ := bind_eq_ok.mp ran
    obtain ⟨t, u, v, reads, writes, made, rfl⟩ := Effect.copy_eq_ok.mp first
    obtain ⟨others, each⟩ := ih separate.tail later
    refine ⟨fun name away => ?_, forall_mem_cons.mpr ⟨⟨t, u, v, reads, writes, made, ?_⟩,
      fun other member => ?_⟩⟩
    · rw [others name fun other member => away other (mem_cons_of_mem _ member), Dict.get?_insert,
        if_neg fun same => away feed mem_cons_self same.symm]
    · rw [others _ fun other member same => (nodup_cons.mp separate.targets).1
        (mem_map.mpr ⟨other, member, same⟩), Dict.get?_insert, if_pos rfl]
    · obtain ⟨source, target⟩ := separate.get?_insert member memory v
      exact source ▸ target ▸ each other member

theorem exists_effect (separate : Separate feeds) (memory : Memory) (symbols : Symbols)
    (holds : Feed → Tensor → Prop)
    (each : ∀ feed ∈ feeds, ∃ t u v, memory.get? feed.source.array = some t ∧
      memory.get? feed.target.array = some u ∧
      Effect.copied feed.source feed.target symbols t u = .ok v ∧ holds feed v) :
    ∃ after, effect feeds memory symbols = .ok after ∧
    (∀ name, (∀ feed ∈ feeds, feed.target.array ≠ name) → after.get? name = memory.get? name) ∧
      ∀ feed ∈ feeds, ∃ v, after.get? feed.target.array = some v ∧ holds feed v := by
  obtain ⟨after, ran⟩ : (effect feeds memory symbols).Succeeds := by
    induction feeds generalizing memory with
    | nil => exact ⟨memory, rfl⟩
    | cons feed rest ih =>
      obtain ⟨⟨t, u, v, reads, writes, made, -⟩, each⟩ := forall_mem_cons.mp each
      rw [effect, foldlM_cons, Effect.copy_eq_ok.mpr ⟨t, u, v, reads, writes, made, rfl⟩, ok_bind]
      refine ih separate.tail _ fun other member => ?_
      obtain ⟨source, target⟩ := separate.get?_insert member memory v
      rw [source, target]
      exact each other member
  obtain ⟨others, left⟩ := get?_effect separate ran
  refine ⟨after, ran, others, fun feed member => ?_⟩
  obtain ⟨t, u, v, reads, writes, made, known⟩ := each feed member
  obtain ⟨t', u', v', reads', writes', made', found⟩ := left feed member
  cases reads.symm.trans reads'
  cases writes.symm.trans writes'
  cases made.symm.trans made'
  exact ⟨v, found, known⟩

end Feed

namespace Feed.Plans

variable {i : Nat} {arrays : Dict Descriptor} {feeds : List Feed}

variable {pairs : List (String × ArgSpec)}

theorem targets (plans : Plans Enters i arrays pairs feeds) :
    (feeds.map fun feed => feed.target.array) = pairs.map Prod.fst ∧ ∀ feed ∈ feeds,
    feed.source.array = feed.array := by
  induction plans with
  | nil => exact ⟨rfl, by simp⟩
  | cons here _ _ ih =>
    cases here with
    | intro known made => exact ⟨congrArg (_ :: ·) ih.1, forall_mem_cons.mpr ⟨rfl, ih.2⟩⟩

theorem separate (plans : Plans Enters i arrays pairs feeds) (distinct : (pairs.map Prod.fst).Nodup)
    (present : ∀ name ∈ pairs.map Prod.fst, arrays.contains name = true) : Separate feeds := by
  obtain ⟨targets, sources⟩ := plans.targets
  refine ⟨targets ▸ distinct, fun feed member other member' same => ?_⟩
  have new := plans.fresh.2 feed member
  rw [← sources feed member, same] at new
  have old := present other.target.array (targets ▸ mem_map_of_mem member')
  rw [new] at old
  cases old

end Feed.Plans

theorem inputArray_iff {i : Nat} : inputArray i array arg = .ok outer ↔
    arg.elem = array.elem ∧ ∃ n dense, sizeProduct arg.shape = .ok n ∧
    sizeProduct array.shape = .ok n ∧ Descriptor.dense array.shape array.elem = .ok dense ∧
      outer = { dense with
        strides := match arg.strides? with
          | some strides => if strides.length = array.rank then strides else dense.strides
          | none => dense.strides
        storage := arg.storage } := by
  unfold inputArray
  dsimp only
  constructor
  · intro made
    obtain ⟨given, counted, made⟩ := bind_eq_ok.mp made
    split at made
    next elem =>
      obtain ⟨n, counted', made⟩ := bind_eq_ok.mp made
      obtain ⟨fits, same, made⟩ := bind_eq_ok.mp made
      obtain ⟨passes, made⟩ := unlessShown_eq_ok.mp made
      obtain ⟨dense, described, result⟩ := bind_eq_ok.mp made
      cases same
      obtain rfl : given = n := by simpa using passes
      cases result
      exact ⟨elem, given, dense, counted, counted', described, rfl⟩
    next other =>
      obtain ⟨_, ⟨⟩, made⟩ := bind_eq_ok.mp made
      exact absurd rfl (unlessShown_eq_ok.mp made).1
  · rintro ⟨elem, n, dense, counted, counted', described, rfl⟩
    refine bind_eq_ok.mpr ⟨n, counted, ?_⟩
    rw [if_pos elem]
    refine bind_eq_ok.mpr ⟨n, counted',
      bind_eq_ok.mpr ⟨_, rfl, unlessShown_eq_ok.mpr ⟨by simp, ?_⟩⟩⟩
    exact bind_eq_ok.mpr ⟨dense, described, rfl⟩

theorem inputArray_eq_ok {i : Nat} (made : inputArray i array arg = .ok outer) :
    outer.shape = array.shape ∧ outer.elem = array.elem ∧ ∃ n, sizeProduct array.shape = .ok n := by
  obtain ⟨-, n, dense, -, counted, described, rfl⟩ := inputArray_iff.mp made
  obtain ⟨strides, -, described⟩ := bind_eq_ok.mp described
  cases described
  exact ⟨rfl, rfl, n, counted⟩

structure Draft.Declares (d : Draft) (name : String) (array : Descriptor) : Prop where
  known : d.graph.arrays.get? name = some array
  variable_ : d.graph.constants.get? name = none

structure Draft.Stages.Started (d : Draft) (feeds feeds' : List Feed) (args : List Argument)
    (given memory : Memory) : Prop where
  bound : ∀ (j : Nat) (name : String) (a : Argument), (feeds.map Feed.array)[j]? = some name →
    args[j]? = some a →
    ∃ array t, (d.routine feeds feeds').graph.arrays.get? name = some array ∧
    Executable.asTensor "" a = .ok t ∧
      Executable.checkArgument name t array = .ok () ∧ given.get? name = some t
  allocated : allocate (d.routine feeds feeds').graph given
    (d.routine feeds feeds').graph.arrays.entries {} = .ok memory

-- A call up to the state that runs behind the copies of the arguments.
structure Draft.Stages.Entered (d : Draft) (feeds feeds' : List Feed) (args : List Argument)
    (given memory after : Memory) : Prop
    extends Draft.Stages.Started d feeds feeds' args given memory where
  copied : Feed.effect feeds memory {} = .ok after

namespace Draft.Stages

variable {d : Draft} {specs : List ArgSpec} {feeds feeds' : List Feed}

theorem get?_routine (stages : d.Stages specs feeds feeds')
    (known : d.graph.arrays.get? name = some array) :
    (d.routine feeds feeds').graph.arrays.get? name = some array := by
  have present : d.graph.arrays.contains name = true := by rw [Dict.contains, known]; rfl
  have kept := stages.enters.keeps present
  have present' : (Feed.declared feeds d.graph.arrays).contains name = true := by
    rw [Dict.contains, kept, known]; rfl
  have new : name ∉ distinct (feeds.map Feed.array ++ feeds'.map Feed.array) := by
    rw [mem_distinct, mem_append, mem_map, mem_map]
    rintro (⟨feed, member, rfl⟩ | ⟨feed, member, rfl⟩)
    · rw [stages.enters.fresh.2 feed member] at present
      cases present
    · rw [stages.leaves.fresh.2 feed member] at present'
      cases present'
  rw [Draft.routine, get?_exposedArrays, if_neg new, stages.leaves.keeps present', kept, known]

theorem get?_routine_input (stages : d.Stages specs feeds feeds') (member : feed ∈ feeds) :
    (d.routine feeds feeds').graph.arrays.get? feed.array = some feed.outer.exposed := by
  have known := stages.enters.get?_declared member
  have present : (Feed.declared feeds d.graph.arrays).contains feed.array = true := by
    rw [Dict.contains, known]; rfl
  have listed : feed.array ∈ distinct (feeds.map Feed.array ++ feeds'.map Feed.array) := by
    rw [mem_distinct]
    exact mem_append_left _ (mem_map_of_mem member)
  rw [Draft.routine, get?_exposedArrays, if_pos listed, stages.leaves.keeps present, known]
  rfl

theorem enters_at (stages : d.Stages specs feeds feeds') {i : Nat} {spec : ArgSpec}
    (input : d.inputs[i]? = some name) (given : specs[i]? = some spec) (sound : d.Sound) :
    ∃ inner outer, d.graph.arrays.get? name = some inner ∧ inputArray i inner spec = .ok outer ∧
      feeds[i]? = some ⟨inputName i, outer, .full (inputName i) outer, .full name inner⟩ := by
  obtain ⟨feed, between, known, enters, same⟩ :=
    stages.enters.getElem? (show (d.inputs.zip specs)[i]? = some (name,
      spec) from getElem?_zip_eq_some.mpr ⟨input, given⟩)
  rw [Nat.zero_add] at enters
  cases enters with
  | intro found made =>
    exact ⟨_, _, (same name (sound.tidy.inputs name (mem_of_getElem? input))).symm.trans found,
      made, known⟩

theorem leaves_at (stages : d.Stages specs feeds feeds') {i : Nat}
    (output : d.outputs[i]? = some name) (sound : d.Sound) :
    ∃ inner outer, d.graph.arrays.get? name = some inner ∧ Descriptor.dense inner.shape inner.elem =
    .ok outer ∧
      feeds'[i]? = some ⟨outputName i, outer, .full name inner, .full (outputName i) outer⟩ := by
  obtain ⟨feed, between, known, leaves, same⟩ := stages.leaves.getElem? output
  rw [Nat.zero_add] at leaves
  cases leaves with
  | intro found made =>
    have here := sound.tidy.outputs name (mem_of_getElem? output)
    have kept := stages.enters.keeps here
    exact ⟨_, _, kept.symm.trans ((same name (by rwa [Dict.contains, kept])).symm.trans found),
      made, known⟩

theorem length_feeds (stages : d.Stages specs feeds feeds') : feeds.length = d.inputs.length := by
  rw [stages.enters.length_eq, length_zip, stages.counted, Nat.min_self]

theorem names_eq (stages : d.Stages specs feeds feeds') :
    (d.inputs.zip specs).map Prod.fst = d.inputs :=
  map_fst_zip (by rw [stages.counted])

theorem separate_enters (stages : d.Stages specs feeds feeds') (sound : d.Sound) :
    Feed.Separate feeds :=
  stages.enters.separate (stages.names_eq.symm ▸ sound.tidy.distinct)
    (stages.names_eq.symm ▸ sound.tidy.inputs)

theorem sorted_routine (sorted : d.graph.arrays.Sorted) :
    (d.routine feeds feeds').graph.arrays.Sorted :=
  sorted_exposedArrays _ (Feed.sorted_declared _ (Feed.sorted_declared _ sorted))

end Draft.Stages

namespace Draft.Stages.Started

variable {d : Draft} {specs : List ArgSpec} {feeds feeds' : List Feed} {args : List Argument}
  {given memory : Memory}

theorem get?_allocated (started : Started d feeds feeds' args given memory) (sound : d.Sound)
    (known : (d.routine feeds feeds').graph.arrays.get? name = some array) :
    ∃ t, initial (d.routine feeds feeds').graph given name array = .ok t ∧
    memory.get? name = some t :=
  have sorted := sorted_routine sound.tidy.own.sorted
  (get?_allocate started.allocated sorted.nodup_keys).2 name array (sorted.mem_entries.mpr known)

theorem get?_memory (started : Started d feeds feeds' args given memory)
    (stages : d.Stages specs feeds feeds') (sound : d.Sound)
    (declares : d.Declares name array) : ∃ u, Tensor.ofDescriptor array = .ok u ∧
    memory.get? name = some u := by
  obtain ⟨u, made, found⟩ := started.get?_allocated sound (stages.get?_routine declares.known)
  have constant : (d.routine feeds feeds').graph.constants.get? name = none := declares.variable_
  rw [initial, constant] at made
  dsimp only at made
  rw [if_pos (sound.tidy.transient name array declares.known)] at made
  exact ⟨u, made, found⟩

theorem get?_exposed (started : Started d feeds feeds' args given memory) (sound : d.Sound)
    (new : d.graph.arrays.contains name = false)
    (known : (d.routine feeds feeds').graph.arrays.get? name = some array.exposed) {t : Tensor}
    (found : given.get? name = some t) :
    t.elem = array.elem ∧ t.shape = array.shape ∧ memory.get? name = some t := by
  obtain ⟨u, made, found'⟩ := started.get?_allocated sound known
  have constant : (d.routine feeds feeds').graph.constants.get? name = none :=
    Dict.get?_eq_none_of_absent (sound.tidy.constants name) new
  rw [initial, constant] at made
  dsimp only at made
  rw [if_neg (by exact Bool.false_ne_true), found] at made
  dsimp only at made
  split at made
  · obtain ⟨_, _, ⟨⟩⟩ := bind_eq_ok.mp made
  next fits =>
    cases made
    rw [not_or, not_not, not_not] at fits
    exact ⟨fits.1, fits.2, found'⟩

theorem argument (started : Started d feeds feeds' args given memory)
    (stages : d.Stages specs feeds feeds') (sound : d.Sound)
    (listed : feeds[j]? = some feed) (argument : args[j]? = some a) :
    ∃ t, Executable.asTensor "" a = .ok t ∧ t.elem = feed.outer.elem ∧ t.shape = feed.outer.shape ∧
    memory.get? feed.array = some t := by
  have member := mem_of_getElem? listed
  obtain ⟨array, t, known, made, -, found⟩ :=
    started.bound j feed.array a (by rw [getElem?_map, listed]; rfl) argument
  exact ⟨t, made, started.get?_exposed sound (stages.enters.fresh.2 feed member)
    (stages.get?_routine_input member) found⟩

end Draft.Stages.Started

def Argument.elements (a : Argument) : Outcome (List Datum) := do
  (← Executable.asTensor "" a).values

-- An array in memory that holds the elements of a variable.
def HoldsOperand (memory : Memory) (name : String) (v : Var) (values : List Datum) : Prop :=
  ∃ count t, memory.get? name = some t ∧ t.Dense count ∧ t.elem = v.elem ∧
    t.shape = Builder.arrayShape v ∧ t.values = .ok values

namespace Draft.Stages.Entered

variable {d : Draft} {specs : List ArgSpec} {feeds feeds' : List Feed} {args : List Argument}
  {given memory after : Memory}

theorem get?_other (entered : Entered d feeds feeds' args given memory after)
    (stages : d.Stages specs feeds feeds') (sound : d.Sound)
    (other : name ∉ d.inputs) : after.get? name = memory.get? name := by
  refine (Feed.get?_effect (stages.separate_enters sound) entered.copied).1 name
    fun feed member same => other ?_
  rw [← stages.names_eq, ← stages.enters.targets.1]
  exact mem_map.mpr ⟨feed, member, same⟩

theorem get?_input (entered : Entered d feeds feeds' args given memory after)
    (stages : d.Stages specs feeds feeds') (sound : d.Sound)
    (input : d.inputs[j]? = some name) (argument : args[j]? = some a)
    (declares : d.Declares name array) :
    ∃ t values n u, Executable.asTensor "" a = .ok t ∧ t.values = .ok values ∧ t.elem = array.elem ∧
    after.get? name = some u ∧ u.Dense n ∧
      u.elem = array.elem ∧ u.shape = array.shape ∧ u.values = .ok
        (values.map array.elem.recode) := by
  have specified := getElem?_eq_getElem
    (stages.counted.symm ▸ (List.getElem?_eq_some_iff.mp input).1 : j < specs.length)
  obtain ⟨_, outer, known, made, listed⟩ := stages.enters_at input specified sound
  cases known.symm.trans declares.known
  obtain ⟨shape, elem, n, counted⟩ := inputArray_eq_ok made
  have member := mem_of_getElem? listed
  obtain ⟨t, u, v, reads, writes, copied, left⟩ :=
    (Feed.get?_effect (stages.separate_enters sound) entered.copied).2 _ member
  -- The source is the argument itself.
  obtain ⟨t', made', elem', shape', found'⟩ := entered.argument stages sound listed argument
  cases reads.symm.trans found'
  -- The target is blank before.
  obtain ⟨u', blank, found'⟩ := entered.get?_memory stages sound declares
  cases writes.symm.trans found'
  have strides := sound.dense name array known
  obtain ⟨few, -⟩ := Tensor.ofDescriptor_rowMajor strides counted blank
  obtain ⟨points, pointed, -⟩ := bind_eq_ok.mp copied
  obtain ⟨readable, holds⟩ :=
    Effect.copied_blank strides counted (Access.few_of_points (shape ▸ counted) few pointed) blank
      shape' shape
  obtain ⟨values, read⟩ := readable v copied
  obtain ⟨v', copied', dense, typed, shaped, held⟩ := holds values read
  cases copied.symm.trans copied'
  exact ⟨t, values, n, v, made', read, by rw [elem', elem], left, dense, typed, shaped, held⟩

theorem holds_input (entered : Entered d feeds feeds' args given memory after)
    (stages : d.Stages specs feeds feeds') (sound : d.Sound)
    (input : d.inputs[j]? = some name) (argument : args[j]? = some a)
    (declares : d.Declares name array) {v : Var} (elem : array.elem = v.elem)
    (shape : array.shape = Builder.arrayShape v) (whole : v.elem.isFloat = false) :
    ∃ values, a.elements = .ok values ∧ HoldsOperand after name v values := by
  obtain ⟨t, values, count, u, made, read, typed, found, dense, typed', shaped, holds⟩ :=
    entered.get?_input stages sound input argument declares
  refine ⟨values, by rw [Argument.elements, made, ok_bind, read], count, u, found, dense,
    typed'.trans elem, shaped.trans shape, ?_⟩
  rw [holds, ← typed, Tensor.map_recode_values (typed ▸ elem ▸ ElemType.readsBack whole) read]

end Draft.Stages.Entered

end TraceFlow
