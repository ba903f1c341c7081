import TraceFlow.Proofs.Collapse
import TraceFlow.Proofs.Validity

set_option autoImplicit false

namespace TraceFlow

open Machine Program List

variable {may' may : Prop} {g : Graph} {states : List State} {effects : List Effect}

def Exhausted {α : Type} (o : Outcome α) : Prop :=
  ∃ name limit, o = halt (.noTermination name limit)

-- Equal outcomes, or, if that may be, one that used up its transitions.
def Agree {α : Type} (may : Prop) (o o' : Outcome α) : Prop :=
  o' = o ∨ may ∧ (Exhausted o ∨ Exhausted o')

section Agree

variable {α β : Type} {may : Prop}

variable {o o' : Outcome α}

theorem Agree.refl (o : Outcome α) : Agree may o o :=
  .inl rfl

theorem Agree.mono (weaker : may → may') (agree : Agree may o o') : Agree may' o o' :=
  agree.imp_right (And.imp_left weaker)

theorem Exhausted.bind (exhausted : Exhausted o) (next : α → Outcome β) :
    Exhausted (o >>= next) := by
  obtain ⟨name, limit, rfl⟩ := exhausted
  exact ⟨name, limit, rfl⟩

theorem Agree.bind {next next' : α → Outcome β} (agree : Agree may o o')
    (agrees : ∀ a, Agree may (next a) (next' a)) : Agree may (o >>= next) (o' >>= next') := by
  rcases agree with rfl | ⟨allowed, first | second⟩
  · cases o' with
    | error failure => exact .refl _
    | ok a => exact agrees a
  · exact .inr ⟨allowed, .inl (first.bind next)⟩
  · exact .inr ⟨allowed, .inr (second.bind next')⟩

end Agree

def Effect.Agree (may : Prop) (f f' : Effect) : Prop :=
  ∀ memory symbols, TraceFlow.Agree may (f memory symbols) (f' memory symbols)

namespace Effect

variable {may : Prop} {f f' : Effect}

theorem Agree.refl (f : Effect) : Effect.Agree may f f :=
  fun _ _ => .refl _

theorem Agree.mono (weaker : may → may') (agree : Effect.Agree may f f') : Effect.Agree may' f f' :=
  fun memory symbols => (agree memory symbols).mono weaker

theorem Agree.andThen {s s' : Effect} (first : Effect.Agree may f f')
    (second : Effect.Agree may s s') : Effect.Agree may (f.andThen s) (f'.andThen s') :=
  fun memory symbols => (first memory symbols).bind fun after => second after symbols

theorem Agree.call (site : CallSite) (arrays : Dict Descriptor) (agree : Effect.Agree may f f') :
    Effect.Agree may (Effect.call site arrays f) (Effect.call site arrays f') := by
  intro memory symbols
  refine (TraceFlow.Agree.refl _).bind fun args => ?_
  refine (TraceFlow.Agree.refl _).bind fun bound => ?_
  exact (agree args bound).bind fun _ => .refl _

end Effect

namespace Machine

variable {may : Prop} {g g' : Graph} {effects effects' : List Effect}

theorem settle?_agree (turns : ∀ id memory symbols,
      Agree may (turn g effects id memory symbols) (turn g' effects' id memory symbols))
    {remaining id : Nat} {memory : Memory} {symbols : Symbols} {result : Outcome Memory}
    (settled : settle? g effects remaining id memory symbols = some result) :
    (∃ result', settle? g' effects' remaining id memory symbols = some result' ∧
      Agree may result result') ∨ may ∧ Exhausted result := by
  induction remaining using Nat.strongRecOn generalizing id memory symbols with
  | _ remaining ih =>
    rw [settle?] at settled ⊢
    rcases turns id memory symbols with
      same | ⟨allowed, ⟨name, limit, fails⟩ | ⟨name, limit, fails⟩⟩
    · rw [same]
      rcases turned : turn g effects id memory symbols with failure | ⟨after, (_ | next)⟩
      · left
        exact ⟨result, by simpa [turned] using settled, .refl _⟩
      · left
        exact ⟨result, by simpa [turned] using settled, .refl _⟩
      · simp only [turned] at settled
        cases remaining with
        | zero => cases settled
        | succ remaining => exact ih remaining (Nat.lt_succ_self remaining) settled
    · right
      simp only [fails, halt] at settled
      exact ⟨allowed, name, limit, (Option.some.inj settled).symm⟩
    · left
      rw [fails]
      exact ⟨_, rfl, .inr ⟨allowed, .inr ⟨name, limit, rfl⟩⟩⟩

end Machine

namespace Graph

-- Nodes that both compile or both do not, and do the same up to the transition limit.
def KeepsNode (may : Prop) (node node' : Node) : Prop :=
  Outcome.Both (Effect.Agree may) (compileNode node) (compileNode node')

theorem KeepsNode.refl (node : Node) : KeepsNode may node node := by
  rw [KeepsNode]
  cases compileNode node with
  | error failure => exact .fails failure failure
  | ok f => exact .gives (.refl f)

def KeepsState (may : Prop) (s s' : State) : Prop :=
  List.Forall₂ (KeepsNode may) s.nodes s'.nodes

theorem KeepsState.compiles {s s' : State} (keeps : KeepsState may s s') :
    Outcome.Both (Effect.Agree may) (compileState s) (compileState s') := by
  obtain ⟨label, nodes⟩ := s
  obtain ⟨label', nodes'⟩ := s'
  have all : List.Forall₂ (KeepsNode may) nodes nodes' := keeps
  rw [compileState, compileState]
  clear keeps
  induction all with
  | nil => exact .gives (.refl _)
  | cons head _ ih =>
    rw [compileNodes_cons, compileNodes_cons]
    exact head.bind fun _ _ first => ih.bind fun _ _ rest => .gives (first.andThen rest)

def withStates (g : Graph) (states : List State) : Graph :=
  { g with states }

theorem inRange_withStates (count : states.length = g.states.length) (inRange : g.InRange) :
    (g.withStates states).InRange :=
  ⟨count ▸ inRange.start, fun e member => count ▸ inRange.edges e member⟩

section WithStates

variable {may : Prop} {g : Graph} {states : List State}
  (keeps : List.Forall₂ (KeepsState may) g.states states)

include keeps

theorem detour_withStates {id : Nat} (detour : (g.withStates states).Detour id) : g.Detour id := by
  refine ⟨detour.notStart, ?_, detour.entered, detour.left⟩
  obtain ⟨label, empty⟩ := detour.empty
  obtain ⟨⟨label', nodes⟩, state, same⟩ := Outcome.exists_of_forall₂ keeps empty
  cases same
  exact ⟨label', state⟩

theorem orderly_withStates (orderly : g.Orderly) : (g.withStates states).Orderly :=
  List.Pairwise.imp (fun excludes source detour => excludes source (detour_withStates keeps detour))
    orderly

theorem compile_withStates : Outcome.Both (List.Forall₂ (Effect.Agree may))
    (g.states.mapM compileState) (states.mapM compileState) :=
  Outcome.Both.mapM (keeps.imp fun _ _ => KeepsState.compiles)

end WithStates

end Graph

namespace Machine

theorem allocate_withEdges (g : Graph) (states : List State) (edges : List Edge) (start : Nat)
    (args : Memory) (arrays : List (String × Descriptor)) (memory : Memory) :
    allocate { g with states := states, edges := edges, start := start } args arrays memory =
      allocate g args arrays memory := by
  induction arrays generalizing memory with
  | nil => rfl
  | cons entry rest ih =>
    simp only [allocate, initial, ih]

theorem length_of_compiled (compiled : g.states.mapM compileState = .ok effects) :
    effects.length = g.states.length :=
  (mapM_eq_ok.mp compiled).length_eq.symm

theorem le_transitionLimit (states : Nat) : states ≤ transitionLimit states + 1 := by
  grind [transitionLimit]

theorem settles_within_limit (acyclic : g.Acyclic) (inRange : g.InRange)
    (compiled : g.states.mapM compileState = .ok effects) (memory : Memory) (symbols : Symbols) :
    settle? g effects (transitionLimit effects.length) g.start memory symbols ≠ none := by
  have enough := le_transitionLimit effects.length
  rw [length_of_compiled compiled] at enough ⊢
  have settles : ∃ result, settle? g effects (transitionLimit g.states.length) g.start memory
    symbols = some result :=
    settles_of_acyclic acyclic inRange inRange.start enough memory symbols
  obtain ⟨result, settled⟩ := settles
  simp [settled]

theorem transitionLimit_mono {few many : Nat} (le : few ≤ many) :
    transitionLimit few ≤ transitionLimit many := by
  grind [transitionLimit]

theorem effectOf_agree {effects' : List Effect}
    (agree : List.Forall₂ (Effect.Agree may) effects effects') (id : Nat) :
    (∃ failure, effectOf effects id = .error failure ∧ effectOf effects' id = .error failure) ∨
      ∃ f f', effectOf effects id = .ok f ∧ effectOf effects' id = .ok f' ∧
      Effect.Agree may f f' := by
  simp only [effectOf]
  induction agree generalizing id with
  | nil => exact .inl ⟨_, rfl, rfl⟩
  | cons head _ ih =>
    cases id with
    | zero => exact .inr ⟨_, _, rfl, rfl, head⟩
    | succ id => simpa using ih id

theorem turn_agree {effects' : List Effect}
    (agree : List.Forall₂ (Effect.Agree may) effects effects') (id : Nat) (memory : Memory)
    (symbols : Symbols) : Agree may (turn g effects id memory symbols)
      (turn (g.withStates states) effects' id memory symbols) := by
  rw [turn, turn]
  rcases effectOf_agree agree id with ⟨failure, fails, fails'⟩ | ⟨f, f', found, found', agrees⟩
  · rw [fails, fails']
    exact .refl _
  · rw [found, found']
    exact (agrees memory symbols).bind fun after => .refl _

end Machine

namespace Graph

theorem Shrinks.walk_agrees {g' : Graph} (keeps : List.Forall₂ (KeepsState may) g.states states)
    (shrinks : (g.withStates states).Shrinks g')
    (inRange : g.InRange) (orderly : g.Orderly) (acyclic : ¬ may → g.Acyclic)
    {effects' : List Effect} (compiled : g.states.mapM compileState = .ok effects)
    (compiled' : g'.states.mapM compileState = .ok effects') (memory : Memory) (symbols : Symbols) :
    Agree may (walk g effects (transitionLimit effects.length) g.start memory symbols)
      (walk g' effects' (transitionLimit effects'.length) g'.start memory symbols) := by
  obtain ⟨between, compiledBetween, agree⟩ := (compile_withStates keeps).of_ok compiled
  rw [walk_eq_settle?, walk_eq_settle?]
  cases first : settle? g effects (transitionLimit effects.length) g.start memory symbols with
  | none =>
    have allowed : may := by
      by_contra strict
      exact settles_within_limit (acyclic strict) inRange compiled memory symbols first
    exact .inr ⟨allowed, .inl ⟨_, _, rfl⟩⟩
  | some result =>
    rcases settle?_agree (turn_agree agree) first with ⟨result', settled, agrees⟩ | ⟨allowed,
      exhausted⟩
    · have settled' := shrinks.settles (orderly_withStates keeps orderly) between effects'
        compiledBetween compiled' _ _ _ _ settled
      cases second : settle? g' effects' (transitionLimit effects'.length) g'.start memory
        symbols with
      | none =>
        have allowed : may := by
          by_contra strict
          exact settles_within_limit (shrinks.acyclic (acyclic strict)) shrinks.inRange compiled'
            memory symbols second
        exact .inr ⟨allowed, .inr ⟨_, _, rfl⟩⟩
      | some found =>
        have fewer : effects'.length ≤ effects.length := by
          rw [length_of_compiled compiled, length_of_compiled compiled', keeps.length_eq]
          exact shrinks.fewer
        have same := settle?_mono second (transitionLimit_mono fewer)
        rw [settled'] at same
        cases same
        exact agrees
    · exact .inr ⟨allowed, .inl exhausted⟩

theorem Shrinks.run_agrees {g' : Graph} (keeps : List.Forall₂ (KeepsState may) g.states states)
    (shrinks : (g.withStates states).Shrinks g')
    (inRange : g.InRange) (orderly : g.Orderly) (acyclic : ¬ may → g.Acyclic) {p p' : Program}
    (compiled : compile g = .ok p)
    (compiled' : compile g' = .ok p') : Effect.Agree may p.run p'.run := by
  obtain ⟨graph, compiled⟩ := compile_eq_ok.mp compiled
  obtain ⟨graph', compiled'⟩ := compile_eq_ok.mp compiled'
  intro args symbols
  have declared := shrinks.declared
  have arrays : g'.arrays = g.arrays := by rw [declared]; rfl
  have allocated (memory : Memory) :
      allocate g' args g'.arrays.entries memory = allocate g args g.arrays.entries memory := by
    rw [arrays, declared]
    exact allocate_withEdges g _ _ _ args _ memory
  simp only [Program.run, graph, graph', allocated]
  refine (Agree.refl _).bind fun memory => ?_
  exact (shrinks.walk_agrees keeps inRange orderly acyclic compiled compiled' memory symbols).bind
    fun _ => .refl _

theorem Shrinks.runs {g' : Graph} (keeps : List.Forall₂ (KeepsState may) g.states states)
    (shrinks : (g.withStates states).Shrinks g')
    (inRange : g.InRange) (orderly : g.Orderly) (acyclic : ¬ may → g.Acyclic) :
    Outcome.Both (fun p p' : Program => Effect.Agree may p.run p'.run) (compile g)
      (compile g') := by
  have nodes : (compile (g.withStates states)).Succeeds ↔ (compile g).Succeeds := by
    have both := (compile_withStates keeps).succeeds_iff
    simp only [compile_eq]
    constructor
    · rintro ⟨p, compiled⟩
      obtain ⟨effects, found, -⟩ := bind_eq_ok.mp compiled
      obtain ⟨effects', found'⟩ := both.mpr ⟨effects, found⟩
      exact ⟨_, by rw [found']; rfl⟩
    · rintro ⟨p, compiled⟩
      obtain ⟨effects, found, -⟩ := bind_eq_ok.mp compiled
      obtain ⟨effects', found'⟩ := both.mp ⟨effects, found⟩
      exact ⟨⟨_, effects'⟩, bind_eq_ok.mpr ⟨effects', found', rfl⟩⟩
  have both := nodes.symm.trans shrinks.compiles.symm
  cases first : compile g with
  | error failure =>
    cases second : compile g' with
    | error failure' => exact .fails failure failure'
    | ok p' => simp [first, second] at both
  | ok p =>
    cases second : compile g' with
    | error failure' => simp [first, second] at both
    | ok p' => exact .gives (shrinks.run_agrees keeps inRange orderly acyclic first second)

-- Runs that agree, as far as there are cycles up to the transition limit.
def Runs (may : Prop) (g g' : Graph) : Prop :=
  Outcome.Both (fun p p' : Program => Effect.Agree may p.run p'.run) (compile g) (compile g')

-- The shape of a graph that is simplified with all it calls.
structure Tidies (g g' : Graph) : Prop where
  declared : g' = g.rewired g'.states g'.edges g'.start
  fewer : g'.states.length ≤ g.states.length
  nodes : ∃ nodes, g.nodes.mapM simplifyNode = .ok nodes ∧ g'.nodes.Perm nodes
  freeSymbols : g'.freeSymbols = g.freeSymbols
  valid : g.Valid → g'.Valid

-- What a graph keeps when it is simplified with all it calls.
structure Simplifies (g g' : Graph) : Prop extends Tidies g g' where
  runs : Runs (¬ g.Everywhere Acyclic) g g'

inductive SimplifiesNode (may ordered : Prop) : Node → Node → Prop
  | copy (source target : Access) :
    SimplifiesNode may ordered (.copy source target) (.copy source target)
  | map (m : MapNode) : SimplifiesNode may ordered (.map m) (.map m)
  | call (site : CallSite) {callee callee' : Graph} : callee.Tidies callee' →
    (ordered → Runs may callee callee') →
    SimplifiesNode may ordered (.call site callee) (.call site callee')

section

variable {may ordered : Prop} {node node' : Node}
  (simplifies : SimplifiesNode may ordered node node')

include simplifies

theorem SimplifiesNode.keeps (holds : ordered) : KeepsNode may node node' := by
  cases simplifies with
  | copy source target => exact .refl _
  | map m => exact .refl _
  | call site callee runs =>
    have arrays : _ = _ := congrArg Graph.arrays callee.declared
    rw [KeepsNode, compileNode, compileNode, arrays]
    exact (runs holds).bind fun p p' agree => .gives (agree.call site _)

theorem SimplifiesNode.symbols : node'.symbols = node.symbols := by
  cases simplifies <;> rfl

theorem SimplifiesNode.check (passes : checkNode g 0 node = .ok ()) : checkNode g 0 node' = .ok
    () := by
  cases simplifies with
  | copy source target => exact passes
  | map m => exact passes
  | call site callee =>
    simp only [checkNode, bind_eq_ok] at passes ⊢
    obtain ⟨⟨⟩, valid, bound⟩ := passes
    obtain ⟨connectors, mapped⟩ := checkCall_eq_ok.mp bound
    refine ⟨(), check_eq_ok.mpr (callee.valid (check_eq_ok.mp valid)), checkCall_eq_ok.mpr ⟨?_, ?_⟩⟩
    · intro entry member
      rw [callee.declared]
      exact connectors entry member
    · rwa [callee.freeSymbols]

end

theorem Valid.renoded (valid : g.Valid) (count : states.length = g.states.length)
    (nodes : ∀ node ∈ (g.withStates states).nodes, checkNode g 0 node = .ok ()) :
    (g.withStates states).Valid := by
  refine valid.similar (similar_rewired g states g.edges g.start) rfl
    (inRange_withStates count valid.inRange) ?_ (fun e member => ⟨e, member, rfl⟩) nodes
  exact fun id bound => valid.connected id (count ▸ bound)

theorem freeSymbols_renoded (uses : ∀ node ∈ (g.withStates states).nodes, ∀ symbol ∈ node.symbols,
      ∃ node ∈ g.nodes, symbol ∈ node.symbols) :
      (g.withStates states).freeSymbols ⊆ g.freeSymbols := by
  intro symbol free
  rw [mem_freeSymbols] at free ⊢
  refine ⟨?_, free.2⟩
  rcases free.1 with declared | guards | ⟨node, member, used⟩
  · exact .inl declared
  · exact .inr (.inl guards)
  · exact .inr (.inr (uses node member symbol used))

section

variable {may ordered : Prop} {g : Graph} {states : List State}
  (all : List.Forall₂ (SimplifiesNode may ordered) g.nodes (g.withStates states).nodes)

include all

theorem exists_simplified {node' : Node} (member : node' ∈ (g.withStates states).nodes) :
    ∃ node ∈ g.nodes, SimplifiesNode may ordered node node' := by
  obtain ⟨place, found⟩ := mem_iff_getElem?.mp member
  obtain ⟨node, known, simplifies⟩ := Outcome.exists_of_forall₂ all found
  exact ⟨node, mem_of_getElem? known, simplifies⟩

theorem Valid.withStates (valid : g.Valid) (count : states.length = g.states.length) :
    (g.withStates states).Valid := by
  refine valid.renoded count fun node' member => ?_
  obtain ⟨node, known, simplifies⟩ := exists_simplified all member
  exact simplifies.check (valid.nodes node known)

theorem freeSymbols_withStates : (g.withStates states).freeSymbols = g.freeSymbols := by
  have uses (symbol : String) : (∃ node ∈ (g.withStates states).nodes, symbol ∈ node.symbols) ↔
    ∃ node ∈ g.nodes, symbol ∈ node.symbols := by
    have same : (g.withStates states).nodes.flatMap Node.symbols =
      g.nodes.flatMap Node.symbols := by
      generalize g.nodes = nodes, (g.withStates states).nodes = nodes' at all
      induction all with
      | nil => rfl
      | cons simplifies _ ih => rw [flatMap_cons, flatMap_cons, simplifies.symbols, ih]
    rw [← mem_flatMap, same, mem_flatMap]
  refine freeSymbols_congr fun symbol => ?_
  rw [mem_freeSymbols, mem_freeSymbols, uses]
  rfl

end

theorem simplify_tidies (g : Graph) (inRange : g.Everywhere InRange) :
    ∃ g', g.simplify = .ok g' ∧ g.Tidies g' ∧
    (g.Everywhere Orderly → Runs (¬ g.Everywhere Acyclic) g g') := by
  induction g using nested_induction with
  | step g ih =>
    let may := ¬ g.Everywhere Acyclic
    let ordered := g.Everywhere Orderly
    let becomes (node node' : Node) : Prop := simplifyNode node = .ok node' ∧
      SimplifiesNode may ordered node node'
    have each (node : Node) (member : node ∈ g.nodes) : ∃ node', simplifyNode node = .ok node' ∧
      becomes node node' := by
      cases node with
      | copy source target => exact ⟨_, rfl, rfl, .copy source target⟩
      | map m => exact ⟨_, rfl, rfl, .map m⟩
      | call site callee =>
        obtain ⟨callee', simplified, tidies, runs⟩ := ih site callee member (inRange.callee member)
        have done : simplifyNode (.call site callee) = .ok (.call site callee') := by
          simp [simplifyNode, simplified]
        refine ⟨_, done, done, .call site tidies fun holds => ?_⟩
        refine (runs (holds.callee member)).imp fun p p' agree => agree.mono
          fun cyclic everywhere => ?_
        exact cyclic (everywhere.callee member)
    have eachState (s : State) (state : s ∈ g.states) : ∃ s', simplifyState s = .ok s' ∧
      List.Forall₂ becomes s.nodes s'.nodes := by
      obtain ⟨nodes, simplified, all⟩ :=
        Outcome.exists_mapM fun node member => each node (mem_flatMap.mpr ⟨s, state, member⟩)
      exact ⟨⟨s.label, nodes⟩, by simp [simplifyState, simplified], all⟩
    obtain ⟨states, simplified, all⟩ := Outcome.exists_mapM eachState
    have count : states.length = g.states.length := all.length_eq.symm
    have flat := rel_flatMap all fun _ _ nodes => nodes
    have nodes : List.Forall₂ (SimplifiesNode may ordered) g.nodes (g.withStates states).nodes :=
      flat.imp fun _ _ both => both.2
    obtain ⟨g', collapsed, shrinks⟩ := collapse_shrinks (inRange_withStates count inRange.here)
    refine ⟨g', ?_, ⟨shrinks.declared, count ▸ shrinks.fewer, ⟨_, ?_, shrinks.nodes⟩, ?_,
      fun valid => ?_⟩, fun holds => ?_⟩
    · rw [simplify_eq, simplified]
      exact collapsed
    · exact mapM_eq_ok.mpr (flat.imp fun _ _ both => both.1)
    · rw [shrinks.freeSymbols, freeSymbols_withStates nodes]
    · exact (valid.withStates nodes count).rewires shrinks.toRewires
    · have keeps : List.Forall₂ (KeepsState may) g.states states :=
        all.imp fun _ _ nodes => nodes.imp fun _ _ both => both.2.keeps holds
      exact shrinks.runs keeps inRange.here holds.here fun strict => (not_not.mp strict).here

theorem simplify_simplifies (g : Graph) (inRange : g.Everywhere InRange)
    (orderly : g.Everywhere Orderly) : ∃ g', g.simplify = .ok g' ∧ g.Simplifies g' := by
  obtain ⟨g', simplified, tidies, runs⟩ := simplify_tidies g inRange
  exact ⟨g', simplified, tidies, runs orderly⟩

theorem everywhere_valid (g : Graph) (valid : g.Valid) : g.Everywhere Valid := by
  induction g using nested_induction with
  | step g ih =>
    refine .intro g valid ?_
    intro site callee member
    have passes := valid.nodes _ member
    simp only [checkNode, bind_eq_ok] at passes
    obtain ⟨⟨⟩, checked, -⟩ := passes
    exact ih site callee member (check_eq_ok.mp checked)

theorem everywhere_inRange (g : Graph) (valid : g.Valid) : g.Everywhere InRange :=
  (everywhere_valid g valid).imp fun _ valid => valid.inRange

theorem run_simplify {g : Graph} {p : Program} (valid : g.check = .ok ())
    (orderly : g.Everywhere Orderly)
    (compiled : compile g = .ok p) {args out : Memory} {symbols : Symbols}
    (ran : p.run args symbols = .ok out) : ∃ g' p', g.simplify = .ok g' ∧ compile g' = .ok p' ∧
      (p'.run args symbols = .ok out ∨ ¬ g.Everywhere Acyclic ∧
        Exhausted (p'.run args symbols)) := by
  obtain ⟨g', simplified, simplifies⟩ :=
    simplify_simplifies g (everywhere_inRange g (check_eq_ok.mp valid)) orderly
  obtain ⟨p', compiled', agree⟩ := simplifies.runs.of_ok compiled
  refine ⟨g', p', simplified, compiled', ?_⟩
  rcases agree args symbols with same | ⟨cyclic, first | second⟩
  · exact .inl (same.trans ran)
  · obtain ⟨name, limit, exhausted⟩ := first
    rw [ran] at exhausted
    cases exhausted
  · exact .inr ⟨cyclic, second⟩

section Overtaking

deriving instance DecidableEq for Tensor

def word : Descriptor :=
  { shape := [1], elem := .int64, strides := [1], transient := false }

def wordTensor (value : UInt8) : Tensor :=
  { elem := .int64, shape := [1], strides := [1], storage := .cpuHeap, bytes :=
    #[value, 0, 0, 0, 0, 0, 0, 0] }

def copyWord (source target : String) : Node :=
  .copy (.element source [.constant 0]) (.element target [.constant 0])

def forked (edges : List Edge) : Graph :=
  { new "forked" with
    arrays := Dict.ofList [("a", word), ("b", word), ("x", word)]
    states := [⟨"fork", []⟩, ⟨"via", []⟩, ⟨"first", [copyWord "a" "x"]⟩,
      ⟨"second", [copyWord "b" "x"]⟩]
    edges
    args := ["a", "b", "x"] }

def forkedArgs (x : UInt8) : Memory :=
  Dict.ofList [("a", wordTensor 1), ("b", wordTensor 2), ("x", wordTensor x)]

def exclusiveEdges : List Edge :=
  [{ source := 0, target := 1, guard? := some ⟨.const 1, 1⟩ }, { source := 1, target := 2 },
    { source := 0, target := 3, guard? := some ⟨.const 1, 2⟩ }]

def overlappingEdges : List Edge :=
  [{ source := 0, target := 1, guard? := some ⟨.const 1, 1⟩ }, { source := 1, target := 2 },
    { source := 0, target := 3, guard? := some ⟨.const 1, 1⟩ }]

theorem orderly_forked : (forked exclusiveEdges).Everywhere Orderly := by
  refine .intro _ ?_ ?_
  · simp [Orderly, forked, exclusiveEdges, Edge.Excludes]
  · simp [nodes, forked, copyWord]

theorem run_simplify_forked :
    ∃ g' p', (forked exclusiveEdges).simplify = .ok g' ∧ compile g' = .ok p' ∧
      (p'.run (forkedArgs 0) {} = .ok (forkedArgs 1) ∨
        ¬ (forked exclusiveEdges).Everywhere Acyclic ∧ Exhausted (p'.run (forkedArgs 0) {})) := by
  have ran : (do (← compile (forked exclusiveEdges)).run (forkedArgs 0) {}) =
    .ok (forkedArgs 1) := by
    decide +kernel
  obtain ⟨p, compiled, ran⟩ := bind_eq_ok.mp ran
  exact run_simplify (by decide +kernel) orderly_forked compiled ran

-- With overlapping guards the bypassed edge, which moves behind the others, is overtaken.
theorem simplify_changes_overlapping : (forked overlappingEdges).check = .ok () ∧
      (do (← compile (forked overlappingEdges)).run (forkedArgs 0) {}) = .ok (forkedArgs 1) ∧
      (do (← compile (← (forked overlappingEdges).simplify)).run (forkedArgs 0) {}) = .ok
        (forkedArgs 2) := by
  decide +kernel

end Overtaking

end Graph

end TraceFlow
