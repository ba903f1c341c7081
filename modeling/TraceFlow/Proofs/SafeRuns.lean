import TraceFlow.Proofs.SafeOutcomes
import TraceFlow.Proofs.Simplification
import TraceFlow.Proofs.StagedRuns

set_option autoImplicit false

namespace TraceFlow

open List
open Outcome (Safe Mild Tame)
open Machine Program

variable {name : String} {d : Descriptor} {arrays : Dict Descriptor} {g : Graph} {id : Nat}
  {args : Memory} {m : MapNode} {body : Effect.MapBody}
  {loose : String → Prop}

namespace Memory

variable {memory : Memory}

def Holds (memory : Memory) (name : String) (d : Descriptor) : Prop :=
  ∃ t, memory.get? name = some t ∧ t.elem = d.elem ∧ t.shape = d.shape

def Fits (memory : Memory) (arrays : Dict Descriptor) : Prop :=
  ∀ name d, arrays.get? name = some d → memory.Holds name d

theorem Holds.insert {other : String} {t u : Tensor} (holds : memory.Holds name d)
    (known : memory.get? other = some t) (same : t.LaidOutAs u) :
    Holds (memory.insert other u) name d := by
  obtain ⟨v, found, elem, shape⟩ := holds
  by_cases here : name = other
  · subst here
    cases known.symm.trans found
    exact ⟨u, by rw [Dict.get?_insert, if_pos rfl], same.elem.trans elem, same.shape.trans shape⟩
  · exact ⟨v, by rw [Dict.get?_insert, if_neg here, found], elem, shape⟩

theorem Fits.insert {t u : Tensor} (fits : memory.Fits arrays) (known : memory.get? name = some t)
    (same : t.LaidOutAs u) : Fits (memory.insert name u) arrays :=
  fun other d declared => (fits other d declared).insert known same

end Memory

namespace Graph

variable {access : Access}

theorem known_of_checkAccess {locals : List String}
    (passes : checkAccess g locals access = .ok ()) :
    ∃ d, g.arrays.get? access.array = some d ∧ access.subset.length = d.rank := by
  unfold checkAccess at passes
  split at passes
  · obtain ⟨_, -, impossible⟩ := bind_eq_ok.mp passes
    cases impossible
  next d known =>
    split at passes
    · obtain ⟨_, -, rest⟩ := bind_eq_ok.mp passes
      obtain ⟨_, impossible, -⟩ := bind_eq_ok.mp rest
      cases impossible
    next rank => exact ⟨d, known, not_not.mp rank⟩

theorem element_of_checkBinding {symbol : String}
    (passes : checkBinding g symbol (.element access) = .ok ()) :
    (∃ d, g.arrays.get? access.array = some d) ∧ access.Element [] := by
  unfold checkBinding at passes
  dsimp only at passes
  split at passes
  · cases passes
  · obtain ⟨_, checked, passes⟩ := bind_eq_ok.mp passes
    obtain ⟨d, known, -⟩ := known_of_checkAccess checked
    refine ⟨⟨d, known⟩, ?_⟩
    split at passes
    · cases passes
    next constant =>
      have all : access.subset.all isConstantIndex = true := by simpa using constant
      intro part member
      have each := all_eq_true.mp all part member
      rcases part with index | ⟨low, high⟩
      · exact ⟨index, rfl, by simp [List.isEmpty_iff.mp each]⟩
      · cases each

theorem arrays_of_checkConnector {callee : Graph} {place inner outer : String}
    (passes : checkConnector g callee place inner outer = .ok ()) :
    ∃ d d' count, callee.arrays.get? inner = some d ∧ g.arrays.get? outer = some d' ∧
    sizeProduct d.shape = .ok count ∧ sizeProduct d'.shape = .ok count := by
  unfold checkConnector at passes
  split at passes
  · cases passes
  · cases passes
  next d' d known known' =>
    split at passes
    · cases passes
    · obtain ⟨count, counted, passes⟩ := bind_eq_ok.mp passes
      obtain ⟨count', counted', passes⟩ := bind_eq_ok.mp passes
      split at passes
      · cases passes
      next fits =>
        simp only [not_or, not_not] at fits
        exact ⟨d, d', count, known', known, counted, fits.1 ▸ counted'⟩

end Graph

namespace Effect

-- An effect that keeps the declared arrays and fails for reasons of data only, or for want of a
-- loose name.
def Keeps (loose : String → Prop) (arrays : Dict Descriptor) (effect : Effect) : Prop :=
  ∀ memory symbols, memory.Fits arrays →
    Tame loose (fun after : Memory => after.Fits arrays) (effect memory symbols)

theorem keeps_skip (arrays : Dict Descriptor) : Keeps loose arrays skip :=
  fun _ _ fits => .gives fits

theorem Keeps.andThen {first second : Effect} (keeps : Keeps loose arrays first)
    (keeps' : Keeps loose arrays second) : Keeps loose arrays (first.andThen second) :=
  fun memory symbols fits => (keeps memory symbols fits).bind fun after fits' => keeps' after
    symbols fits'

theorem safe_writeAll (t : Tensor) (name : String) (pairs : List (List Int × Datum)) :
    Safe t.LaidOutAs (writeAll t name pairs) := by
  induction pairs generalizing t with
  | nil => exact .gives (.refl t)
  | cons pair rest ih =>
    refine (t.safe_locate name pair.1).bind fun offset _ => ?_
    exact (t.safe_set offset pair.2).bind fun u same => (ih u).imp fun _ later => same.trans later

theorem keeps_copy {source target : Access} (passes : Graph.checkCopy g id source target = .ok ())
    (closed : source.symbols = []) (closed' : target.symbols = []) : Keeps loose g.arrays
      (copy source target) := by
  intro memory symbols fits
  obtain ⟨reads, writes, count, volume, volume'⟩ := Graph.checkCopy_eq_ok.mp passes
  obtain ⟨d, known, -⟩ := Graph.known_of_checkAccess reads
  obtain ⟨d', known', -⟩ := Graph.known_of_checkAccess writes
  obtain ⟨t, found, -, -⟩ := fits _ _ known
  obtain ⟨u, found', -, -⟩ := fits _ _ known'
  rw [copy_eq found found']
  refine .inl ?_
  refine @Safe.bind _ _ u.LaidOutAs _ _ _ ?_ fun v same => .gives (fits.insert found' same)
  refine (Access.safe_points closed symbols.get?).bind fun points listed => ?_
  refine (Access.safe_points closed' symbols.get?).bind fun points' listed' => ?_
  have lengths : points.length = points'.length := by
    have first := volume.symm.trans (Access.volume_of_points listed)
    have second := volume'.symm.trans (Access.volume_of_points listed')
    exact (Except.ok.inj first).symm.trans (Except.ok.inj second)
  rw [if_neg (not_not.mpr lengths)]
  refine .andThen ?_ fun values => safe_writeAll u target.array _
  refine .mapM fun index _ => ?_
  exact (t.safe_locate source.array index).bind fun offset _ => t.safe_get offset

namespace MapBody

variable {entries : List (String × Access)} {symbols : Symbols} {point : List Int} {array : String}

structure Closed (loose : String → Prop) (body : MapBody) : Prop where
  inputs : ∀ entry ∈ body.elements, entry.2.Element body.node.locals
  dynamic : ∀ entry ∈ body.node.dynamic.entries, entry.2.Element []
  output : body.output.Element body.node.locals
  names : ∀ n ∈ body.value.names, loose n ∨ n ∈ body.elements.map Prod.fst ∨ n ∈ body.node.locals
  arrays : ∀ array count, (array, count) ∈ body.value.subscripts → ∃ w,
    Dict.lookup array body.windows = some w ∧ w.origin.length = count

-- All accesses of a map are to arrays that are declared.
structure Known (body : MapBody) (arrays : Dict Descriptor) : Prop where
  inputs : ∀ entry ∈ body.node.inputs.entries, ∃ d, arrays.get? entry.2.array = some d
  dynamic : ∀ entry ∈ body.node.dynamic.entries, ∃ d, arrays.get? entry.2.array = some d
  output : ∃ d, arrays.get? body.output.array = some d

variable {body : MapBody} {arrays : Dict Descriptor} {memory : Memory}

theorem safe_dynamicSymbols (fits : memory.Fits arrays)
    (closed : ∀ entry ∈ entries, entry.2.Element [])
    (known : ∀ entry ∈ entries, ∃ d, arrays.get? entry.2.array = some d) (symbols : Symbols) :
    Safe (fun after : Symbols => ∀ s, s ∈ entries.map Prod.fst ∨ (symbols.get? s).isSome = true →
      (after.get? s).isSome = true) (dynamicSymbols memory entries symbols) := by
  induction entries generalizing symbols with
  | nil => exact .gives fun s bound => by simpa using bound
  | cons entry rest ih =>
    obtain ⟨symbol, access⟩ := entry
    obtain ⟨d, declared⟩ := known _ mem_cons_self
    obtain ⟨t, found, -, -⟩ := fits _ _ declared
    refine (Access.safe_readElement_fixed symbols.get? (closed _ mem_cons_self) found).andThen
      fun value => ?_
    refine (ih (fun entry member => closed entry (mem_cons_of_mem _ member))
      (fun entry member => known entry (mem_cons_of_mem _ member))
      (symbols.insert symbol value.toInt64.toInt)).imp fun after bound s either => bound s ?_
    rw [Dict.get?_insert]
    grind

theorem safe_readScalars (fits : memory.Fits arrays) {names : List String}
    (bound : ∀ s ∈ names, (symbols.get? s).isSome = true)
    (closed : ∀ entry ∈ entries, entry.2.Element names)
    (known : ∀ entry ∈ entries, ∃ d, arrays.get? entry.2.array = some d) (scalars : Dict Datum) :
    Safe (fun after : Dict Datum => ∀ n, n ∈ entries.map Prod.fst ∨ (scalars.get? n).isSome = true →
      (after.get? n).isSome = true) (readScalars memory symbols entries scalars) := by
  induction entries generalizing scalars with
  | nil => exact .gives fun n either => by simpa using either
  | cons entry rest ih =>
    obtain ⟨connector, access⟩ := entry
    obtain ⟨d, declared⟩ := known _ mem_cons_self
    obtain ⟨t, found, -, -⟩ := fits _ _ declared
    refine (Access.safe_readElement (closed _ mem_cons_self) bound found).bind fun value _ => ?_
    refine (ih (fun entry member => closed entry (mem_cons_of_mem _ member))
      (fun entry member => known entry (mem_cons_of_mem _ member))
      (scalars.insert connector value)).imp fun after bound n either => bound n ?_
    rw [Dict.get?_insert]
    grind

theorem bindPoint_bound {axes : List Axis} (length : point.length = axes.length) (symbols : Symbols)
    (s : String) (either : s ∈ axes.map Axis.param ∨ (symbols.get? s).isSome = true) :
    ((bindPoint axes point symbols).get? s).isSome = true := by
  induction axes generalizing point symbols with
  | nil => simpa [bindPoint] using either
  | cons axis rest ih =>
    cases point with
    | nil => cases length
    | cons i point =>
      have step : bindPoint (axis :: rest) (i :: point) symbols = bindPoint rest point
        (symbols.insert axis.param i) := rfl
      rw [step]
      refine ih (by simpa using length) _ ?_
      rw [Dict.get?_insert]
      grind

theorem exists_of_lookup_windows {w : Window} (found : Dict.lookup array body.windows = some w) :
    ∃ entry ∈ body.node.inputs.entries, entry.2.array = w.array := by
  obtain ⟨⟨connector, access⟩, member, made⟩ := mem_filterMap.mp (Dict.mem_of_lookup found)
  obtain ⟨w', made, same⟩ := Option.map_eq_some_iff.mp made
  cases same
  refine ⟨_, member, ?_⟩
  unfold window? at made
  dsimp only at made
  split at made
  · cases made
    rfl
  · cases made

theorem safe_windowElement (known : body.Known arrays) (fits : memory.Fits arrays) {w : Window}
    (found : Dict.lookup array body.windows = some w) {index : List Int}
    (length : index.length = w.origin.length) : Mild (body.windowElement memory array index) := by
  obtain ⟨entry, member, same⟩ := exists_of_lookup_windows found
  obtain ⟨d, declared⟩ := known.inputs entry member
  obtain ⟨t, present, -, -⟩ := fits _ _ (same ▸ declared)
  rw [windowElement, found]
  simp only [length, ne_eq, not_true_eq_false, if_false]
  refine (Safe.mapM fun pair _ => safe_checkIndex _).andThen fun absolute => ?_
  rw [Memory.array, present]
  exact (t.safe_locate w.array absolute).bind fun offset _ => t.safe_get offset

theorem tame_runPoint (closed : body.Closed loose) (known : body.Known arrays)
    (bound : ∀ s ∈ body.node.dynamic.keys, (symbols.get? s).isSome = true)
    (fits : memory.Fits arrays) (length : point.length = body.node.axes.length) :
    Tame loose (fun after : Memory => after.Fits arrays) (body.runPoint symbols memory point) := by
  have locals : ∀ s ∈ body.node.locals, ((bindPoint body.node.axes point symbols).get? s).isSome =
    true := by
    intro s member
    rcases mem_append.mp member with here | there
    · exact bindPoint_bound length symbols s (.inl here)
    · exact bindPoint_bound length symbols s (.inr (bound s there))
  have inputs : ∀ entry ∈ body.elements, ∃ d, arrays.get? entry.2.array = some d :=
    fun entry member =>
    known.inputs entry (mem_filter.mp member).1
  unfold runPoint
  refine Tame.bind (.inl (safe_readScalars fits locals closed.inputs inputs {})) fun scalars read =>
    ?_
  have binds : (body.scope memory scalars (bindPoint body.node.axes point symbols)).Binds loose
    body.value.names body.value.subscripts := by
    constructor
    · intro n member
      rw [scope]
      refine (closed.names n member).imp_right fun own => ?_
      rcases own with element | here
      · simp [Option.isSome_or, read n (.inl element)]
      · simp [Option.isSome_or, locals n here]
    · intro array count member index length
      obtain ⟨w, found, rank⟩ := closed.arrays array count member
      exact safe_windowElement known fits found (length.trans rank.symm)
  refine (body.value.tame_eval binds).bind fun value _ => .inl ?_
  refine (Access.safe_elementIndex closed.output locals).bind fun index _ => ?_
  obtain ⟨d, declared⟩ := known.output
  obtain ⟨t, found, -, -⟩ := fits _ _ declared
  rw [Memory.array, found]
  refine (t.safe_locate body.output.array index).bind fun offset _ => ?_
  exact (t.safe_set offset value).bind fun u same => .gives (fits.insert found same)

theorem tame_runPoints (closed : body.Closed loose) (known : body.Known arrays)
    (bound : ∀ s ∈ body.node.dynamic.keys, (symbols.get? s).isSome = true)
    (fits : memory.Fits arrays) {points : List (List Int)}
    (lengths : ∀ point ∈ points, point.length = body.node.axes.length) :
    Tame loose (fun after : Memory => after.Fits arrays)
      (body.runPoints symbols memory points) := by
  induction points generalizing memory with
  | nil => exact .gives fits
  | cons point rest ih =>
    refine (tame_runPoint closed known bound fits (lengths point mem_cons_self)).bind
      fun after fits' => ?_
    exact ih fits' fun other member => lengths other (mem_cons_of_mem point member)

theorem safe_allPoints (body : MapBody) :
    Safe (fun points => ∀ point ∈ points, point.length = body.node.axes.length) body.points := by
  have closed : (⟨"", body.node.axes.map fun axis => .range axis.low axis.high⟩ : Access).symbols =
    [] := by
    simp [Access.symbols, Subscript.symbols, flatMap_map]
  refine (Access.safe_points closed fun _ => none).imp fun points listed point member => ?_
  obtain ⟨bounds, bounded, listed⟩ := bind_eq_ok.mp listed
  obtain ⟨_, -, listed⟩ := bind_eq_ok.mp listed
  obtain ⟨_, -, listed⟩ := bind_eq_ok.mp listed
  cases listed
  rw [← (Box.mem_points.mp member).length_eq, ← (mapM_eq_ok.mp bounded).length_eq, length_map]

end MapBody

theorem keeps_map {body : MapBody} (closed : body.Closed loose) (known : body.Known arrays) :
    Keeps loose arrays (map body) := by
  intro memory symbols fits
  refine Tame.bind (.inl (MapBody.safe_dynamicSymbols fits closed.dynamic known.dynamic symbols))
    fun after bound => ?_
  refine Tame.bind (.inl body.safe_allPoints) fun points lengths => ?_
  exact MapBody.tame_runPoints closed known (fun s member => bound s (.inl member)) fits lengths

theorem safe_assignLogical {target source : Tensor} {count : Nat}
    (counted : sizeProduct target.shape = .ok count)
    (counted' : sizeProduct source.shape = .ok count) : Safe target.LaidOutAs
      (assignLogical target source) := by
  rw [assignLogical, Tensor.count, Tensor.count, counted, counted']
  simp only [ok_bind, ne_eq, not_true_eq_false, if_false]
  exact target.safe_offsets.bind fun offsets _ => source.safe_values.bind fun values _ =>
    target.safe_store _

-- A callee that runs on arguments as it declares them, and gives them back so.
def Serves (loose : String → Prop) (arrays : Dict Descriptor) (run : Effect) : Prop :=
  ∀ args symbols, (∀ name d, arrays.get? name = some d → d.transient = false → args.Holds name d) →
    Tame loose (fun after : Memory => ∀ name d, arrays.get? name = some d →
      (args.get? name).isSome = true → after.Holds name d) (run args symbols)

section Call

variable {site : CallSite} {outer inner : Dict Descriptor} {memory : Memory}

variable {entries : List (String × String)}

def Connects (outer inner : Dict Descriptor) (entry : String × String) : Prop :=
  ∃ d d' count, inner.get? entry.1 = some d ∧ outer.get? entry.2 = some d' ∧
    sizeProduct d.shape = .ok count ∧ sizeProduct d'.shape = .ok count

theorem safe_calleeArgs (fits : memory.Fits outer)
    (connects : ∀ entry ∈ entries, Connects outer inner entry)
    (typed : ∀ name t, args.get? name = some t → ∃ d, inner.get? name = some d ∧ t.elem = d.elem ∧
      t.shape = d.shape) : Safe
    (fun after : Memory => (∀ name t, after.get? name = some t → ∃ d, inner.get? name = some d ∧
      t.elem = d.elem ∧ t.shape = d.shape) ∧
      ∀ name, name ∈ entries.map Prod.fst ∨ (args.get? name).isSome = true →
      (after.get? name).isSome = true) (calleeArgs site inner memory entries args) := by
  induction entries generalizing args with
  | nil => exact .gives ⟨typed, fun name either => by simpa using either⟩
  | cons entry rest ih =>
    obtain ⟨name, source⟩ := entry
    obtain ⟨d, d', count, known, known', counted, counted'⟩ := connects _ mem_cons_self
    have later := fun entry member => connects entry (mem_cons_of_mem (name, source) member)
    rw [calleeArgs]
    split
    next present =>
      refine (ih later typed).imp fun after result =>
        ⟨result.1, fun other either => result.2 other ?_⟩
      rw [Dict.contains] at present
      grind
    next absent =>
      dsimp only at known
      rw [known]
      obtain ⟨t, found, -, shape⟩ := fits _ _ known'
      refine (Tensor.safe_ofDescriptor d).bind fun blank made => ?_
      rw [Memory.array, found, ok_bind]
      refine (safe_assignLogical (made.2 ▸ counted) (shape ▸ counted')).bind fun value same => ?_
      have typed' : ∀ other t, (args.insert name value).get? other = some t → ∃ d,
        inner.get? other = some d ∧ t.elem = d.elem ∧ t.shape = d.shape := by
        intro other t present
        rw [Dict.get?_insert] at present
        split at present
        next here =>
          cases present
          exact ⟨d, here ▸ known, same.elem.trans made.1, same.shape.trans made.2⟩
        · exact typed other t present
      refine (ih later typed').imp fun after result =>
        ⟨result.1, fun other either => result.2 other ?_⟩
      rw [Dict.get?_insert]
      grind

theorem safe_takeOutputs (connects : ∀ entry ∈ entries, Connects outer inner entry)
    (given : ∀ entry ∈ entries, ∀ d, inner.get? entry.1 = some d → args.Holds entry.1 d)
    (fits : memory.Fits outer) :
    Safe (fun after : Memory => after.Fits outer) (takeOutputs site args entries memory) := by
  induction entries generalizing memory with
  | nil => exact .gives fits
  | cons entry rest ih =>
    obtain ⟨name, target⟩ := entry
    obtain ⟨d, d', count, known, known', counted, counted'⟩ := connects _ mem_cons_self
    obtain ⟨result, present, -, shape⟩ := given _ mem_cons_self d known
    obtain ⟨t, found, -, shape'⟩ := fits _ _ known'
    dsimp only at present found
    rw [takeOutputs, present, Memory.array]
    dsimp only
    rw [found, ok_bind]
    refine (safe_assignLogical (shape' ▸ counted') (shape ▸ counted)).bind fun value same => ?_
    exact ih (fun entry member => connects entry (mem_cons_of_mem _ member))
      (fun entry member => given entry (mem_cons_of_mem _ member))
      (fits.insert found same)

theorem keeps_call {run : Effect}
    (connects : ∀ entry ∈ site.inputs.entries ++ site.outputs.entries, Connects outer inner entry)
    (covers : ∀ name d, inner.get? name = some d → d.transient = false →
      name ∈ (site.inputs.entries ++ site.outputs.entries).map Prod.fst)
    (closed : site.symbols.entries = []) (serves : Serves loose inner run) : Keeps loose outer
      (call site inner run) := by
  intro memory symbols fits
  have none : ∀ name t, ({} : Memory).get? name = some t → ∃ d, inner.get? name = some d ∧
    t.elem = d.elem ∧ t.shape = d.shape := by
    intro name t impossible
    cases impossible
  refine Tame.bind (.inl (safe_calleeArgs fits connects none)) fun args typed => ?_
  rw [closed]
  have accepted : ∀ name d, inner.get? name = some d → (args.get? name).isSome = true →
    args.Holds name d := by
    intro name d known present
    obtain ⟨t, found⟩ := Option.isSome_iff_exists.mp present
    obtain ⟨d', known', elem, shape⟩ := typed.1 name t found
    cases known.symm.trans known'
    exact ⟨t, found, elem, shape⟩
  have bound := fun name d known own => accepted name d known
    (typed.2 name (.inl (covers name d known own)))
  refine (serves args {} bound).bind fun after results => .inl ?_
  refine safe_takeOutputs (fun entry member => connects entry (mem_append_right _ member)) ?_ fits
  intro entry member d known
  exact results entry.1 d known
    (typed.2 entry.1 (.inl (mem_map_of_mem (mem_append_right _ member))))

end Call

end Effect

namespace Graph

structure Closed (loose : String → Prop) (g : Graph) : Prop where
  sorted : g.arrays.Sorted
  constants : ∀ name value d, g.constants.get? name = some value → g.arrays.get? name = some d →
    value.elem = d.elem ∧ value.shape = d.shape
  copies : ∀ source target, Node.copy source target ∈ g.nodes → source.symbols = [] ∧
    target.symbols = []
  maps : ∀ m, Node.map m ∈ g.nodes → ∀ body, prepare m = .ok body → body.Closed loose
  calls : ∀ site callee, Node.call site callee ∈ g.nodes → site.symbols.entries = [] ∧
    ∀ name d, callee.arrays.get? name = some d → d.transient = false →
    name ∈ (site.inputs.entries ++ site.outputs.entries).map Prod.fst
  guards : ∀ e ∈ g.edges, ∀ s ∈ e.guardSymbols, e.source ≠ g.start ∧ ∀ before ∈ g.edges,
    before.target = e.source → s ∈ before.assignments.keys

end Graph

theorem prepare_eq_ok (made : prepare m = .ok body) :
    body.node = m ∧ Kernel.Assignment.parse m.code = .ok ⟨(m.outputs.entries.map Prod.fst).headD "",
      body.value⟩ ∧ ∃ target, m.outputs.entries = [(target, body.output)] := by
  unfold prepare at made
  obtain ⟨assignment, parsed, made⟩ := bind_eq_ok.mp made
  split at made
  · cases made
  next output known =>
    obtain ⟨single, made⟩ := unless_eq_ok.mp made
    cases made
    obtain ⟨entry, only⟩ := length_eq_one_iff.mp (not_not.mp single)
    have member := Dict.mem_of_lookup known
    rw [only, mem_singleton] at member
    subst member
    exact ⟨rfl, by rw [only]; exact parsed, _, only⟩

theorem Graph.known_of_checkMap (passes : checkMap g id m = .ok ()) (made : prepare m = .ok body) :
    body.Known g.arrays := by
  obtain ⟨-, -, params, -, dynamic, accesses⟩ := checkMap_eq_ok.mp passes
  obtain ⟨rfl, -, target, only⟩ := prepare_eq_ok made
  have known (access : Access) (member : access ∈ body.node.accesses) :
    ∃ d, g.arrays.get? access.array = some d := by
    obtain ⟨d, found, -⟩ := known_of_checkAccess (accesses access member)
    exact ⟨d, found⟩
  refine ⟨fun entry member => known entry.2 ?_, fun entry member => ?_, known body.output ?_⟩
  · exact mem_map_of_mem (mem_append_left _ member)
  · obtain ⟨d, found, -⟩ := known_of_checkAccess (dynamic entry member).1
    exact ⟨d, found⟩
  · exact mem_map.mpr ⟨(target, body.output), mem_append_right _ (by simp [only]), rfl⟩

namespace Machine

variable {g : Graph} {memory : Memory}

variable {symbols : Symbols}

theorem safe_initial (closed : g.Closed loose)
    (given : ∀ name d, g.arrays.get? name = some d → d.transient = false → args.Holds name d)
    (known : g.arrays.get? name = some d) :
    Safe (fun t => t.elem = d.elem ∧ t.shape = d.shape) (initial g args name d) := by
  unfold initial
  split
  next value constant => exact .gives (closed.constants name value d constant known)
  · split
    · exact Tensor.safe_ofDescriptor d
    next own =>
      obtain ⟨t, found, elem, shape⟩ := given name d known (by simpa using own)
      rw [found]
      dsimp only
      rw [if_neg (by simp [elem, shape])]
      exact .gives ⟨elem, shape⟩

theorem safe_allocate (closed : g.Closed loose)
    (given : ∀ name d, g.arrays.get? name = some d → d.transient = false → args.Holds name d) :
    Safe (fun memory : Memory => memory.Fits g.arrays) (allocate g args g.arrays.entries {}) := by
  have general (entries : List (String × Descriptor)) (within : ∀ entry ∈ entries,
    entry ∈ g.arrays.entries) (memory : Memory) :
      Mild (allocate g args entries memory) := by
    induction entries generalizing memory with
    | nil => exact .gives trivial
    | cons entry rest ih =>
      obtain ⟨name, d⟩ := entry
      rw [allocate]
      refine (safe_initial closed given
        (closed.sorted.mem_entries.mp (within _ mem_cons_self))).bind fun value _ => ?_
      exact ih (fun other member => within other (mem_cons_of_mem _ member)) _
  refine ((general _ (fun _ member => member) {}).with_ok fun after ran name d known => ?_).imp
    fun _ result => result.2
  obtain ⟨value, made, found⟩ :=
    (get?_allocate ran closed.sorted.nodup_keys).2 name d (closed.sorted.mem_entries.mpr known)
  have typed := safe_initial closed given known
  rw [made] at typed
  cases typed with
  | gives typed => exact ⟨value, found, typed⟩

theorem safe_assigned (fits : memory.Fits g.arrays) {entries : List (String × Binding)}
    (checked : ∀ entry ∈ entries, Graph.checkBinding g entry.1 entry.2 = .ok ()) :
    Safe (fun values : List (String × Int) => values.map Prod.fst = entries.map Prod.fst)
      (assigned memory symbols entries) := by
  induction entries with
  | nil => exact .gives rfl
  | cons entry rest ih =>
    obtain ⟨symbol, binding⟩ := entry
    rw [assigned]
    refine .andThen ?_ fun value => ?_
    · cases binding with
      | const value => exact .gives trivial
      | element access =>
        obtain ⟨⟨d, declared⟩, element⟩ := Graph.element_of_checkBinding (checked _ mem_cons_self)
        obtain ⟨t, found, -, -⟩ := fits _ _ declared
        exact (Access.safe_readElement_fixed symbols.get? element found).andThen fun _ =>
          .gives trivial
    · refine (ih fun entry member => checked entry (mem_cons_of_mem _ member)).bind
        fun values same => .gives ?_
      rw [map_cons, map_cons, same]

theorem assign_bound {values : List (String × Int)} {s : String}
    (either : s ∈ values.map Prod.fst ∨ (symbols.get? s).isSome = true) :
    ((assign symbols values).get? s).isSome = true := by
  induction values generalizing symbols with
  | nil => simpa [assign] using either
  | cons pair rest ih =>
    have step : assign symbols (pair :: rest) = assign (symbols.insert pair.1 pair.2) rest := rfl
    rw [step]
    apply ih
    rw [Dict.get?_insert]
    grind

theorem safe_take (fits : memory.Fits g.arrays) {edges : List Edge}
    (checked : ∀ e ∈ edges, ∀ entry ∈ e.assignments.entries, Graph.checkBinding g entry.1 entry.2 =
      .ok ()) (ready : ∀ e ∈ edges, ∀ s ∈ e.guardSymbols, (symbols.get? s).isSome = true) :
    Safe (fun way => ∀ target symbols', way = some (target, symbols') → ∃ e ∈ edges,
      e.target = target ∧
      ∀ s ∈ e.assignments.keys, (symbols'.get? s).isSome = true) (take memory symbols edges) := by
  induction edges with
  | nil =>
    refine .gives ?_
    rintro target symbols' ⟨⟩
  | cons e rest ih =>
    have later := ih (fun e member => checked e (mem_cons_of_mem _ member))
      (fun e member => ready e (mem_cons_of_mem _ member))
    have guarded (guard : Guard) (found : e.guard? = some guard) :
      Mild (Guard.holds guard symbols) := by
      rw [Guard.holds]
      cases operand : guard.lhs with
      | const value => exact .gives trivial
      | symbol name =>
        have used : name ∈ e.guardSymbols := by
          obtain ⟨lhs, rhs⟩ := guard
          cases operand
          simp [Edge.guardSymbols, found]
        obtain ⟨value, known⟩ := Option.isSome_iff_exists.mp (ready e mem_cons_self name used)
        dsimp only
        rw [known]
        exact .gives trivial
    have chosen (goes : Bool) : Safe (fun way => ∀ target symbols', way = some (target, symbols') →
      ∃ e' ∈ e :: rest, e'.target = target ∧
        ∀ s ∈ e'.assignments.keys, (symbols'.get? s).isSome = true) (if goes then do
          let values ← assigned memory symbols e.assignments.entries
          return some (e.target, assign symbols values)
        else take memory symbols rest) := by
      refine .ite (fun _ => ?_) fun _ => later.imp fun way leads target symbols' same => ?_
      · refine (safe_assigned fits (checked e mem_cons_self)).bind fun values same => .gives ?_
        rintro target symbols' ⟨⟩
        refine ⟨e, mem_cons_self, rfl, fun s member => assign_bound (.inl ?_)⟩
        rw [same]
        exact member
      · obtain ⟨e', member, leads⟩ := leads target symbols' same
        exact ⟨e', mem_cons_of_mem e member, leads⟩
    rw [take]
    cases found : e.guard? with
    | none => exact chosen true
    | some guard => exact (guarded guard found).bind fun goes _ => chosen goes

-- A run that settles is tame, since every transition leads to a state whose guards have their
-- symbols.
theorem tame_settle? (closed : g.Closed loose) (valid : g.Valid) {effects : List Effect}
    (keeps : ∀ effect ∈ effects, Effect.Keeps loose g.arrays effect)
    {remaining : Nat} {result : Outcome Memory} (fits : memory.Fits g.arrays)
    (ready : ∀ e ∈ g.outEdges id, ∀ s ∈ e.guardSymbols, (symbols.get? s).isSome = true)
    (settled : settle? g effects remaining id memory symbols = some result) :
    Tame loose (fun after : Memory => after.Fits g.arrays) result := by
  have turned {id : Nat} {memory : Memory} {symbols : Symbols} (fits : memory.Fits g.arrays)
      (ready : ∀ e ∈ g.outEdges id, ∀ s ∈ e.guardSymbols, (symbols.get? s).isSome = true) :
      Tame loose (fun next : Turn => next.1.Fits g.arrays ∧ ∀ target symbols',
        next.2 = some (target, symbols') →
        ∀ e ∈ g.outEdges target, ∀ s ∈ e.guardSymbols, (symbols'.get? s).isSome = true)
          (turn g effects id memory symbols) := by
    rw [turn, effectOf]
    cases found : effects[id]? with
    | none => exact .inl (.fails rfl)
    | some effect =>
      refine (keeps effect (mem_of_getElem? found) memory symbols fits).bind fun after fits' => ?_
      refine .inl ((safe_take fits' (fun e member => valid.bindings e (mem_of_mem_filter member))
        ready).bind fun way leads => .gives ⟨fits', ?_⟩)
      intro target symbols' same e member s used
      obtain ⟨before, listed, reaches, bound⟩ := leads target symbols' same
      obtain ⟨inside, source⟩ := mem_filter.mp member
      have source : e.source = target := by simpa using source
      exact bound s ((closed.guards e inside s used).2 before (mem_of_mem_filter listed)
        (reaches.trans source.symm))
  induction remaining generalizing id memory symbols with
  | zero =>
    have tame := turned fits ready
    rw [settle?] at settled
    rcases ran : turn g effects id memory symbols with failure | ⟨after, _ | ⟨target, symbols'⟩⟩
    · rw [ran] at settled tame
      cases settled
      exact tame.error
    · rw [ran] at settled tame
      cases settled
      exact .gives tame.holds_ok.1
    · rw [ran] at settled
      cases settled
  | succ remaining ih =>
    have tame := turned fits ready
    rw [settle?] at settled
    rcases ran : turn g effects id memory symbols with failure | ⟨after, _ | ⟨target, symbols'⟩⟩
    · rw [ran] at settled tame
      cases settled
      exact tame.error
    · rw [ran] at settled tame
      cases settled
      exact .gives tame.holds_ok.1
    · rw [ran] at settled tame
      exact ih tame.holds_ok.1 (tame.holds_ok.2 target symbols' rfl) settled

end Machine

theorem Machine.get?_results (args memory : Memory) (name : String) :
    (results args memory).get? name = (args.get? name).map fun value =>
    (memory.get? name).getD value := by
  obtain ⟨entries⟩ := args
  change Dict.lookup name (entries.map _) = (Dict.lookup name entries).map _
  induction entries with
  | nil => rfl
  | cons entry rest ih =>
    obtain ⟨key, value⟩ := entry
    rw [map_cons, Dict.lookup, Dict.lookup, ih]
    by_cases same : key = name
    · simp [same]
    · simp [same]

namespace Graph

theorem keeps_compileNodes (closed : g.Closed loose)
    (serves : ∀ site callee, Node.call site callee ∈ g.nodes →
      ∀ p, compile callee = .ok p → Effect.Serves loose callee.arrays p.run) {nodes :
      List Node} (within : ∀ node ∈ nodes, node ∈ g.nodes)
    (checked : ∀ node ∈ nodes, checkNode g 0 node = .ok ()) {effect : Effect}
    (compiled : compileNodes nodes = .ok effect) : Effect.Keeps loose g.arrays effect := by
  induction nodes generalizing effect with
  | nil =>
    cases compiled
    exact Effect.keeps_skip _
  | cons node rest ih =>
    rw [compileNodes_cons] at compiled
    obtain ⟨first, here, compiled⟩ := bind_eq_ok.mp compiled
    obtain ⟨others, there, compiled⟩ := bind_eq_ok.mp compiled
    cases compiled
    refine Effect.Keeps.andThen ?_ (ih (fun node member => within node (mem_cons_of_mem _ member))
      (fun node member => checked node (mem_cons_of_mem _ member)) there)
    have member := within node mem_cons_self
    have passes := checked node mem_cons_self
    cases node with
    | copy source target =>
      cases here
      exact Effect.keeps_copy passes (closed.copies _ _ member).1 (closed.copies _ _ member).2
    | map m =>
      obtain ⟨body, made, here⟩ := bind_eq_ok.mp here
      cases here
      exact Effect.keeps_map (closed.maps m member body made) (known_of_checkMap passes made)
    | call site callee =>
      obtain ⟨p, made, here⟩ := bind_eq_ok.mp here
      cases here
      obtain ⟨_, -, bound⟩ := bind_eq_ok.mp passes
      obtain ⟨connectors, -⟩ := checkCall_eq_ok.mp bound
      refine Effect.keeps_call (fun entry listed => ?_) (closed.calls site callee member).2
        (closed.calls site callee member).1
        (serves site callee member p made)
      exact arrays_of_checkConnector (connectors entry listed)

-- Closed graphs serve their callers, as the graphs that they call serve them.
theorem serves_of_closed (closed : g.Everywhere fun g => g.Closed loose ∧ g.Acyclic)
    (valid : g.Valid) {p : Program}
    (compiled : compile g = .ok p) : Effect.Serves loose g.arrays p.run := by
  induction closed generalizing p with
  | intro g here _ ih =>
    obtain ⟨closed, acyclic⟩ := here
    obtain ⟨graph, effects⟩ := compile_eq_ok.mp compiled
    have callee {site : CallSite} {callee : Graph} (member : Node.call site callee ∈ g.nodes) :
      callee.Valid := by
      obtain ⟨_, passes, -⟩ := bind_eq_ok.mp (valid.nodes _ member)
      exact check_eq_ok.mp passes
    have keeps : ∀ effect ∈ p.effects, Effect.Keeps loose g.arrays effect := by
      intro effect member
      obtain ⟨s, state, made⟩ := Outcome.forall₂_right (mapM_eq_ok.mp effects) member
      have within : ∀ node ∈ s.nodes, node ∈ g.nodes :=
        fun node inside => mem_flatMap.mpr ⟨s, state, inside⟩
      exact keeps_compileNodes closed (fun site callee' called p made => ih site callee' called
        (callee called) made) within
        (fun node inside => valid.nodes node (within node inside)) made
    intro args symbols given
    rw [Program.run, graph]
    refine Tame.bind (.inl (safe_allocate closed given)) fun memory fits => ?_
    have settles := settles_within_limit acyclic valid.inRange effects memory symbols
    obtain ⟨result, settled⟩ := Option.ne_none_iff_exists'.mp settles
    have ready : ∀ e ∈ g.outEdges g.start, ∀ s ∈ e.guardSymbols,
      (symbols.get? s).isSome = true := by
      intro e member s used
      obtain ⟨inside, source⟩ := mem_filter.mp member
      exact absurd (by simpa using source) (closed.guards e inside s used).1
    dsimp only
    rw [walk_eq_settle?, settled, Option.getD_some]
    refine (tame_settle? closed valid keeps fits ready settled).bind fun after fits' => .gives ?_
    intro name d known present
    obtain ⟨t, found, typed⟩ := fits' name d known
    obtain ⟨value, listed⟩ := Option.isSome_iff_exists.mp present
    exact ⟨t, by rw [get?_results, listed, found]; rfl, typed⟩

end Graph

end TraceFlow
