import TraceFlow.Proofs.LoweredShape
import TraceFlow.Proofs.NewArrays

set_option autoImplicit false

namespace TraceFlow

open Builder Lowering List

variable {fuel mapped : Nat} {f : Lambda} {fs : List Lambda} {d d' opened child : Draft}
  {node : Node} {nodes : List Node} {e : Equation}
  {equations : List Equation} {name pattern label : String} {inputs outputs : List String}
    {names : List (Option String)} {g g' : Graph} {block : Block}
  {arrays arrays' : Dict Descriptor} {lower : Lambda → Option String → LowerM Draft}

def Equation.nested (e : Equation) : List Lambda :=
  e.params.entries.flatMap fun entry => match entry.2 with
    | .lambda f => [f]
    | .lambdas fs => fs
    | _ => []

theorem Params.require_eq_ok {ps : Params} {p : Param} (found : ps.require name = .ok p) :
    ps.get? name = some p := by
  unfold Params.require at found
  split at found <;> cases found
  assumption

theorem Equation.mem_nested_of_lambda (known : Params.lambda e.params name = .ok f) :
    f ∈ e.nested := by
  obtain ⟨p, found, known⟩ := bind_eq_ok.mp known
  split at known
  next f' =>
    cases known
    exact mem_flatMap.mpr ⟨_, Dict.mem_of_lookup (Params.require_eq_ok found), mem_singleton_self _⟩
  next => cases known

theorem Equation.mem_nested_of_lambdas (known : Params.lambdas e.params name = .ok fs)
    (member : f ∈ fs) : f ∈ e.nested := by
  obtain ⟨p, found, known⟩ := bind_eq_ok.mp known
  split at known
  next fs' =>
    cases known
    exact mem_flatMap.mpr ⟨_, Dict.mem_of_lookup (Params.require_eq_ok found), member⟩
  next => cases known

-- The arrays of one dictionary stand in the other one as well, as they are.
def Dict.Keeps (arrays arrays' : Dict Descriptor) : Prop :=
  ∀ name array, arrays.get? name = some array → arrays'.get? name = some array

theorem Dict.Keeps.insert (free : arrays.contains name = false) (array : Descriptor) :
    Dict.Keeps arrays (arrays.insert name array) := by
  intro other found known
  have away : other ≠ name := by
    rintro rfl
    rw [Dict.contains, known] at free
    cases free
  rw [Dict.get?_insert, if_neg away, known]

theorem Dict.Keeps.trans {arrays'' : Dict Descriptor} (keeps : arrays.Keeps arrays')
    (keeps' : arrays'.Keeps arrays'') : arrays.Keeps arrays'' :=
  fun name array known => keeps' name array (keeps name array known)

theorem Promotes.keeps {i : Nat} {pairs : List (Option String × Atom)}
    (promotes : Promotes pattern i pairs g inputs g') : g.arrays.Keeps g'.arrays := by
  induction promotes with
  | nil => exact fun _ _ known => known
  | array _ ih => exact ih
  | literal _ added _ ih =>
    obtain ⟨array, -, free, rfl⟩ := addConstant_eq_ok.mp added
    exact fun name found known => ih name found (Dict.Keeps.insert free array name found known)

theorem Fills.keeps (fills : Fills lower names outputs e label g g' block) :
    g.arrays.Keeps g'.arrays := by
  cases fills with
  | flat => exact fun _ _ known => known
  | call => exact fun _ _ known => known
  | @switch _ _ _ _ _ _ _ selector _ _ _ _ _ _ promotes =>
    cases selector with
    | fixed value => exact promotes.keeps
    | read array => exact promotes.keeps

theorem LowersStep.keeps (step : LowersStep lower equations d d') : d'.inputs? = d.inputs? ∧
    d.graph.arrays.Keeps d'.graph.arrays := by
  cases step with
  | places _ places =>
    have inputs := congrArg Draft.inputs? places.creates.eq
    exact ⟨inputs, fun name array known => places.fills.keeps name array
      (places.creates.get?_older known)⟩
  | copies made => exact ⟨rfl, .insert made.free _⟩
  | unmaps _ => exact ⟨rfl, fun _ _ known => known⟩

inductive Node.IsMade (lower : Lambda → Option String → LowerM Draft) (equations : List Equation)
    (arrays : Dict Descriptor) : Node → Prop
  | copied {source target : String} {array array' : Descriptor} :
    (∃ array, arrays.get? target = some array) →
    IsMade lower equations arrays (.copy (.full source array) (.full target array'))
  | emitted {names : List (Option String)} {outputs : List String} {e : Equation} {node : Node} :
    e ∈ equations → Emitted names outputs e node →
    (∀ output ∈ outputs, some output ∉ names ∧ ∃ array, arrays.get? output = some array) →
    IsMade lower equations arrays node
  | called {f : Lambda} {label : String} {inputs outputs : List String} {e : Equation}
    {node : Node} : e ∈ equations → f ∈ e.nested →
    (∀ output ∈ outputs, ∃ array, arrays.get? output = some array) →
    Calls lower f label inputs outputs node → IsMade lower equations arrays node

theorem Node.IsMade.keeps (made : node.IsMade lower equations arrays)
    (keeps : arrays.Keeps arrays') : node.IsMade lower equations arrays' := by
  have kept {name : String} : (∃ array, arrays.get? name = some array) → ∃ array,
    arrays'.get? name = some array := Exists.imp (keeps name)
  cases made with
  | copied known => exact .copied (kept known)
  | emitted member emitted new =>
    exact .emitted member emitted fun output listed => (new output listed).imp_right kept
  | called member inside known calls =>
    exact .called member inside (fun output listed => kept (known output listed)) calls

theorem CallsFrom.mem {i : Nat} (calls : CallsFrom lower pattern inputs outputs i fs nodes)
    (member : node ∈ nodes) : ∃ f ∈ fs, ∃ label, Calls lower f label inputs outputs node := by
  induction calls with
  | nil i => cases member
  | cons here _ ih =>
    rcases mem_cons.mp member with rfl | later
    · exact ⟨_, mem_cons_self, _, here⟩
    · obtain ⟨f, listed, calls⟩ := ih later
      exact ⟨f, mem_cons_of_mem _ listed, calls⟩

theorem Block.nodes_switch {selector : Selector} {s : State}
    (member : s ∈ (Block.switch pattern selector nodes).states)
    (inside : node ∈ s.nodes) : node ∈ nodes := by
  simp only [Block.switch, mem_append, mem_cons, not_mem_nil, or_false] at member
  rcases member with ((rfl | lead) | branch) | rfl
  · cases inside
  · cases selector with
    | fixed value => cases lead
    | read array =>
      rw [mem_singleton.mp lead] at inside
      cases inside
  · obtain ⟨other, listed, same⟩ := mem_branchesFrom branch
    rw [same, mem_singleton] at inside
    exact inside ▸ listed
  · cases inside

theorem PlacesEquation.new (places : PlacesEquation lower d mapped e names outputs opened g block) :
    ∀ output ∈ outputs, some output ∉ names ∧ ∃ array,
    opened.graph.arrays.get? output = some array := by
  intro output created
  constructor
  · intro read
    obtain ⟨atom, -, resolved⟩ := Outcome.forall₂_right places.resolved read
    have free := places.creates.fresh.2 output created
    cases atom with
    | literal s => exact resolved.elim
    | var v =>
      rw [resolved.2] at free
      cases free
  · obtain ⟨j, small, rfl⟩ := mem_iff_getElem.mp created
    obtain ⟨name, array, named, -, known, -⟩ :=
      places.creates.getElem? (getElem?_eq_getElem (places.creates.length_eq ▸ small))
    cases (getElem?_eq_getElem small).symm.trans named
    exact ⟨array, known⟩

theorem PlacesEquation.isMade (member : e ∈ equations)
    (places : PlacesEquation lower d mapped e names outputs opened g block) :
    ∀ s ∈ block.states, ∀ node ∈ s.nodes, node.IsMade lower equations g.arrays := by
  intro s state node inside
  have new := places.new
  have known (output : String) (listed : output ∈ outputs) :
    ∃ array, g.arrays.get? output = some array :=
    (new output listed).2.imp (places.fills.keeps output)
  cases places.fills with
  | flat ruled noded =>
    obtain rfl := mem_singleton.mp state
    exact .emitted member (emitted_of_nodes ruled noded node inside) new
  | call _ _ callee calls =>
    obtain rfl := mem_singleton.mp state
    obtain rfl := mem_singleton.mp inside
    exact .called member (Equation.mem_nested_of_lambda callee) known calls
  | switch _ _ _ _ listed _ _ calls _ =>
    obtain ⟨f, among, _, calls⟩ := calls.mem (Block.nodes_switch state inside)
    exact .called member (Equation.mem_nested_of_lambdas listed among) known calls

def Draft.Made (lower : Lambda → Option String → LowerM Draft) (equations : List Equation)
    (d : Draft) : Prop :=
  ∀ s ∈ d.graph.states, ∀ node ∈ s.nodes, node.IsMade lower equations d.graph.arrays

theorem State.mem_modify {states : List State} {s : State} {id : Nat} {added : Node}
    (member : s ∈ states.modify id (·.add added)) (inside : node ∈ s.nodes) :
    node = added ∨ ∃ old ∈ states, node ∈ old.nodes := by
  obtain ⟨place, known⟩ := mem_iff_getElem?.mp member
  rw [getElem?_modify] at known
  obtain ⟨old, present, rfl⟩ := Option.map_eq_some_iff.mp known
  have old := mem_of_getElem? present
  split at inside
  · rcases mem_append.mp inside with before | single
    · exact .inr ⟨_, old, before⟩
    · exact .inl (mem_singleton.mp single)
  · exact .inr ⟨_, old, inside⟩

theorem Draft.Made.step (step : LowersStep lower equations d d') (made : d.Made lower equations) :
    d'.Made lower equations := by
  have kept := step.keeps.2
  intro s member node inside
  cases step with
  | @places opened _ _ _ _ g _ listed places =>
    rcases mem_append.mp member with old | new
    · have states : g.states = d.graph.states :=
        congrArg (fun machine => machine.1.states) places.machine_eq
      exact (made s (states ▸ old) node inside).keeps kept
    · exact places.isMade listed s new node inside
  | copies =>
    rcases State.mem_modify member inside with rfl | ⟨old, there, inside⟩
    · exact .copied ⟨_, by simp [Draft.withArray, Dict.get?_insert]; rfl⟩
    · exact (made old there node inside).keeps kept
  | unmaps _ => exact made s member node inside

theorem Lowers.made (lowers : Lowers fuel f d) : d.Made (inner fuel) f.equations := by
  obtain ⟨title, mapped, outputs, d, lowered, rfl⟩ := lowers
  have made : d.Made (inner fuel) f.equations := by
    refine lowered.preserves (fun constants creates s member node inside => ?_) Draft.Made.step
    have states := congrArg (fun machine => machine.1.states)
      (creates.machine_eq.trans constants.machine_eq)
    rw [mem_singleton.mp (states ▸ member : s ∈ (Draft.new title).block.states)] at inside
    cases inside
  exact made

-- The function that is called was lowered before, with less fuel.
theorem Calls.lowers (calls : Calls (inner fuel) f label inputs outputs node) :
    ∃ less < fuel, ∃ child, Lowers less f child ∧ Embeds child inputs outputs node := by
  obtain ⟨b, child, b', given, embeds⟩ := calls
  rcases level : fuel - 1 with _ | less
  · rw [inner, level] at given
    exact absurd given gives_refuse
  · rw [inner, level] at given
    exact ⟨less, by omega, child, lowers_of_gives given, embeds⟩

theorem Finished.machine (finished : Finished d inputs outputs g) : g.states = d.graph.states ∧
    g.edges = d.graph.edges ∧ g.start = d.graph.start := by
  obtain ⟨-, rfl⟩ := expose_eq_ok.mp finished.exposed
  exact ⟨rfl, rfl, rfl⟩

theorem everywhere_callees {P : Graph → Prop} {Q : Lambda → Prop}
    (nested : ∀ f, Q f → ∀ e ∈ f.equations, ∀ callee ∈ e.nested, Q callee)
    (each : ∀ fuel f d r, Q f → Lowers fuel f d → d.finish true = .ok r → P r.graph) (fuel : Nat) :
    ∀ f d, Q f → Lowers fuel f d → ∀ site callee, Node.call site callee ∈ d.graph.nodes →
    callee.Everywhere P := by
  induction fuel using Nat.strongRecOn with
  | ind fuel ih =>
    intro f d here lowers site callee member
    obtain ⟨s, state, inside⟩ := mem_flatMap.mp member
    generalize call : Node.call site callee = node at inside
    cases lowers.made s state node inside with
    | copied => cases call
    | emitted _ emitted =>
      subst call
      cases emitted
    | called listed among _ calls =>
      obtain ⟨less, below, child, lowered, -, -, routine, finished, rfl⟩ := calls.lowers
      cases call
      have there := nested f here _ listed _ among
      refine .intro _ (each _ _ _ _ there lowered finished) fun site callee member => ?_
      obtain ⟨_, _, _, done, rfl, -⟩ := finish_eq_ok.mp finished
      refine ih less below _ child there lowered site callee ?_
      rw [Graph.nodes, ← done.machine.1]
      exact member

theorem Draft.node_staged {feeds feeds' : List Feed}
    (member : node ∈ ((d.entered feeds).left feeds').graph.nodes) :
    node ∈ d.graph.nodes ∨ (∃ feed ∈ feeds, node = feed.node) ∨ ∃ feed ∈ feeds',
    node = feed.node := by
  simp only [Graph.nodes, left, entered, flatMap_append, mem_append, flatMap_cons, flatMap_nil,
    append_nil, mem_map] at member
  rcases member with (old | ⟨feed, listed, rfl⟩) | ⟨feed, listed, rfl⟩
  · exact .inl old
  · exact .inr (.inl ⟨feed, listed, rfl⟩)
  · exact .inr (.inr ⟨feed, listed, rfl⟩)

theorem Draft.node_of_routine {feeds feeds' : List Feed}
    (member : node ∈ (d.routine feeds feeds').graph.nodes)
    (other : ∀ source target, node ≠ .copy source target) : node ∈ d.graph.nodes := by
  rcases Draft.node_staged member with inner | ⟨feed, -, rfl⟩ | ⟨feed, -, rfl⟩
  · exact inner
  · exact absurd rfl (other _ _)
  · exact absurd rfl (other _ _)

theorem Draft.Formed.ordered (formed : d.Formed) : d.graph.Orderly ∧ d.graph.Acyclic :=
  ⟨formed.exclusive.imp fun excludes same _ => excludes same, id,
    fun e member => (formed.forward e member).1⟩

theorem Draft.Formed.ordered_staged (formed : d.Formed) (feeds feeds' : List Feed) :
    ((d.entered feeds).left feeds').graph.Orderly ∧
    ((d.entered feeds).left feeds').graph.Acyclic := by
  have inside : d.terminal < d.graph.states.length := formed.inside
  have start := formed.start
  have exclusive : ((d.entered feeds).left feeds').graph.edges.Pairwise fun e later => e.source =
    later.source → e.Excludes later := by
    rw [Draft.edges_staged, pairwise_append]
    refine ⟨formed.exclusive, pairwise_pair.mpr ?_, ?_⟩
    · intro same
      simp only at same
      omega
    · intro e old later new same
      have forward := formed.leads old
      have idle := formed.idle e old
      simp only [mem_cons, not_mem_nil, or_false] at new
      rcases new with rfl | rfl
      · simp only at same
        omega
      · exact absurd same idle
  refine ⟨exclusive.imp fun excludes same _ => excludes same,
    fun id => if id = d.graph.states.length then 0 else id + 1, ?_⟩
  intro e member
  rcases Draft.mem_edges_staged member with old | rfl | rfl
  · have forward := formed.leads old
    beta_reduce
    rw [if_neg (by omega), if_neg (by omega)]
    omega
  · beta_reduce
    rw [if_pos rfl, if_neg (by simp only; omega)]
    omega
  · beta_reduce
    simp only
    rw [if_neg (by omega), if_neg (by omega)]
    omega

theorem Graph.ordered_congr (states : g'.states = g.states) (edges : g'.edges = g.edges)
    (start : g'.start = g.start) (ordered : g.Orderly ∧ g.Acyclic) : g'.Orderly ∧ g'.Acyclic := by
  obtain ⟨orderly, rank, climbs⟩ := ordered
  have detour (id : Nat) (detour : g'.Detour id) : g.Detour id := by
    obtain ⟨notStart, empty, entered, left⟩ := detour
    simp only [Graph.inDegree, Graph.inEdges, Graph.outDegree, Graph.outEdges, states, edges,
      start] at notStart empty entered left
    exact ⟨notStart, empty, entered, left⟩
  refine ⟨?_, rank, by simpa only [edges] using climbs⟩
  rw [Graph.Orderly, edges]
  exact orderly.imp fun excludes same through => excludes same (detour _ through)

theorem toRoutine_everywhere {args : List ArgSpec} {r : Routine} (lowers : Lowers fuel f d)
    (made : d.toRoutine args true = .ok r) : r.graph.Everywhere fun g => g.Orderly ∧ g.Acyclic := by
  obtain ⟨feeds, feeds', -, rfl, -⟩ := toRoutine_iff.mp made
  refine .intro _ (Graph.ordered_congr (g := ((d.entered feeds).left feeds').graph) rfl rfl rfl
    (lowers.formed.ordered_staged feeds feeds')) fun site callee member => ?_
  refine everywhere_callees (Q := fun _ => True) (fun _ _ _ _ _ _ => trivial)
    (fun fuel f d r _ lowers finished => ?_) fuel f d trivial lowers site callee
    (Draft.node_of_routine member nofun)
  obtain ⟨_, _, g, done, rfl, -⟩ := finish_eq_ok.mp finished
  obtain ⟨states, edges, first⟩ := done.machine
  exact Graph.ordered_congr states edges first lowers.formed.ordered

end TraceFlow
