import TraceFlow.Proofs.FlatRules

set_option autoImplicit false

namespace TraceFlow

open Builder List

variable {inputs outputs : List String} {name? : Option String} {atom : Atom} {kit : Toolkit}
  {branches : List Lambda} {label : String}

theorem Graph.eta (g : Graph) :
    (⟨g.name, g.arrays, g.constants, g.symbols, g.states, g.edges, g.start, g.args⟩ : Graph) =
    g := by
  cases g
  rfl

-- States that follow others. They and the ends of their edges are counted from the first one.
structure Block where
  states : List State
  edges : List Edge
  terminal : Nat

def Edge.moved (first : Nat) (e : Edge) : Edge :=
  { e with source := first + e.source, target := first + e.target }

def Draft.followedBy (d : Draft) (block : Block) : Draft :=
  { d with
    graph := { d.graph with
      states := d.graph.states ++ block.states
      edges := d.graph.edges ++ { source := d.terminal, target := d.graph.states.length } ::
        block.edges.map (·.moved d.graph.states.length) }
    terminal := d.graph.states.length + block.terminal }

def Block.single (label : String) (nodes : List Node) : Block :=
  ⟨[⟨label, nodes⟩], [], 0⟩

inductive Selector where
  | fixed (value : Int)
  | read (array : String)

namespace Selector

def symbol (array : String) : String :=
  array ++ "_symb"

def operand : Selector → Operand
  | .fixed value => .const value
  | .read array => .symbol (symbol array)

def states (pattern : String) : Selector → List State
  | .fixed _ => []
  | .read _ => [⟨pattern ++ "_fork", []⟩]

def assignments (array : String) : Dict Binding :=
  Dict.ofList [(symbol array, .element (.element array [.constant 0]))]

def edges : Selector → List Edge
  | .fixed _ => []
  | .read array => [{ source := 0, target := 1, assignments := assignments array }]

def fork : Selector → Nat
  | .fixed _ => 0
  | .read _ => 1

def declare (g : Graph) : Selector → Graph
  | .fixed _ => g
  | .read array => g.addSymbol (symbol array) .int64

@[simp] theorem states_declare (g : Graph) (selector : Selector) :
    (selector.declare g).states = g.states := by
  cases selector <;> rfl

@[simp] theorem edges_declare (g : Graph) (selector : Selector) :
    (selector.declare g).edges = g.edges := by
  cases selector <;> rfl

end Selector

def branchState (pattern : String) (i : Nat) (node : Node) : State :=
  ⟨pattern ++ "_state_branch_" ++ i.repr, [node]⟩

def branchesFrom (pattern : String) : Nat → List Node → List State
  | _, [] => []
  | i, node :: rest => branchState pattern i node :: branchesFrom pattern (i + 1) rest

def partingFrom (operand : Operand) (source target : Nat) : Nat → Nat → List Edge
  | _, 0 => []
  | i, count + 1 =>
    { source, target := target + i, guard? := some ⟨operand, i⟩ } ::
      partingFrom operand source target (i + 1) count

def meeting (source target count : Nat) : List Edge :=
  (List.range count).map fun i => { source := source + i, target }

def Block.switch (pattern : String) (selector : Selector) (nodes : List Node) : Block :=
  let fork := selector.fork
  let join := fork + 1 + nodes.length
  { states := ⟨pattern, []⟩ :: selector.states pattern ++ branchesFrom pattern 0 nodes ++
    [⟨pattern ++ "_join", []⟩]
    edges := selector.edges ++ partingFrom selector.operand fork (fork + 1) 0 nodes.length ++
    meeting (fork + 1) join nodes.length
    terminal := join }

-- A node that calls a lowered function, its inputs and outputs bound in order.
def Embeds (child : Draft) (inputs outputs : List String) (node : Node) : Prop :=
  child.inputs.length = inputs.length ∧ child.outputs.length = outputs.length ∧
    ∃ routine, child.finish true = .ok routine ∧ node = .call
      { label := routine.graph.name
        inputs := Dict.ofList (child.inputs.zip inputs)
        outputs := Dict.ofList (child.outputs.zip outputs)
        symbols := {} } routine.graph

def Calls (lower : Lambda → Option String → LowerM Draft) (f : Lambda) (label : String)
    (inputs outputs : List String) (node : Node) : Prop :=
  ∃ b child b', Gives (lower f (some label)) b child b' ∧ Embeds child inputs outputs node

theorem addNode_eq_ok {g g' : Graph} {id : Nat} {node : Node} : g.addNode id node = .ok g' ↔
      id < g.states.length ∧ g' = { g with states := g.states.modify id (·.add node) } := by
  rw [Graph.addNode]
  by_cases inside : id < g.states.length <;> simp [Graph.hasState, inside, eq_comm]

theorem gives_embed {d : Draft} {rest : List Draft} {mapped unnamed state : Nat} {child : Draft}
    {u : Unit} {b' : Builder}
    (given : Gives (Nested.embed state child inputs outputs) ⟨d :: rest, mapped, unnamed⟩ u b') :
    ∃ node g, Embeds child inputs outputs node ∧ d.graph.addNode state node = .ok g ∧
      b' = ⟨{ d with graph := g } :: rest, mapped, unnamed⟩ := by
  rw [Nested.embed] at given
  obtain ⟨fits, given⟩ := gives_unless.mp given
  obtain ⟨routine, finished, given⟩ := gives_lift_bind.mp given
  obtain ⟨g, added, rfl⟩ := gives_emit.mp given
  rw [not_or, not_not, not_not] at fits
  exact ⟨_, g, ⟨fits.1, fits.2, routine, finished, rfl⟩, added, rfl⟩

-- Literals that become constants named after their places, the others keeping their arrays.
inductive Promotes (pattern : String) : Nat → List (Option String × Atom) → Graph → List String →
    Graph → Prop
  | nil (i : Nat) (g : Graph) : Promotes pattern i [] g [] g
  | array {i : Nat} {name : String} {atom : Atom} {rest : List (Option String × Atom)}
    {g g' : Graph} {inputs : List String} :
    Promotes pattern (i + 1) rest g inputs g' →
    Promotes pattern i ((some name, atom) :: rest) g (name :: inputs) g'
  | literal {i : Nat} {s : Scalar} {value : Tensor} {rest : List (Option String × Atom)}
    {g g₁ g' : Graph} {inputs : List String} :
    Tensor.ofScalar s = .ok value → g.addConstant (Nested.literalName pattern i) value = .ok g₁ →
    Promotes pattern (i + 1) rest g₁ inputs g' →
    Promotes pattern i ((none, .literal s) :: rest) g (Nested.literalName pattern i :: inputs) g'

inductive Selects : Option String → Atom → Selector → Prop
  | fixed (s : Scalar) : Selects none (.literal s) (.fixed s.value.toInt64.toInt)
  | read (name : String) (atom : Atom) : Selects (some name) atom (.read name)

section

variable {d : Draft} {rest : List Draft} {mapped unnamed : Nat} {b' : Builder} {pattern : String}
  {pairs : List (Option String × Atom)}

theorem gives_promoteFrom {i : Nat}
    (given : Gives (Nested.promoteFrom pattern i pairs) ⟨d :: rest, mapped, unnamed⟩ inputs b') :
    ∃ g, Promotes pattern i pairs d.graph inputs g ∧
    b' = ⟨{ d with graph := g } :: rest, mapped, unnamed⟩ := by
  induction pairs generalizing d i inputs b' with
  | nil =>
    obtain ⟨rfl, rfl⟩ := gives_pure.mp given
    exact ⟨d.graph, .nil i d.graph, rfl⟩
  | cons pair others ih =>
    obtain ⟨name?, atom⟩ := pair
    unfold Nested.promoteFrom at given
    rcases name? with _ | name
    · cases atom with
      | var v =>
        exact absurd given gives_refuse_bind
      | literal s =>
        obtain ⟨value, stored, given⟩ := gives_lift_bind.mp given
        obtain ⟨g₁, added, given⟩ := gives_changeGraph_bind.mp given
        obtain ⟨_, _, made, given⟩ := gives_bind.mp given
        obtain ⟨rfl, rfl⟩ := gives_pure.mp made
        obtain ⟨names, _, later, given⟩ := gives_bind.mp given
        obtain ⟨g, promotes, rfl⟩ := ih later
        obtain ⟨rfl, rfl⟩ := gives_pure.mp given
        exact ⟨g, .literal stored added promotes, rfl⟩
    · obtain ⟨_, between, made, given⟩ := gives_bind.mp given
      obtain ⟨rfl, rfl⟩ := gives_pure.mp made
      obtain ⟨names, _, later, given⟩ := gives_bind.mp given
      obtain ⟨g, promotes, rfl⟩ := ih later
      obtain ⟨rfl, rfl⟩ := gives_pure.mp given
      exact ⟨g, .array promotes, rfl⟩

def Draft.forked (d : Draft) (pattern : String) (selector : Selector) : Draft :=
  { d with
    graph := { selector.declare d.graph with
      states := d.graph.states ++ selector.states pattern
      edges := d.graph.edges ++ selector.edges.map (·.moved d.terminal) }
    terminal := d.terminal + selector.fork }

theorem gives_selection {operand : Operand} {source : Nat}
    (last : d.terminal + 1 = d.graph.states.length) :
    Gives (Nested.selection pattern name? atom d.terminal) ⟨d :: rest, mapped, unnamed⟩
      (operand, source) b' → ∃ selector, Selects name? atom selector ∧ operand = selector.operand ∧
      source = d.terminal + selector.fork ∧
        b' = ⟨d.forked pattern selector :: rest, mapped, unnamed⟩ := by
  intro given
  unfold Nested.selection at given
  rcases name? with _ | name
  · cases atom with
    | var v => exact absurd given gives_refuse
    | literal s =>
      obtain ⟨same, rfl⟩ := gives_pure.mp given
      cases same
      refine ⟨_, .fixed s, rfl, by simp [Selector.fork], ?_⟩
      simp [Draft.forked, Selector.declare, Selector.states, Selector.edges, Selector.fork,
        Graph.eta]
  · obtain ⟨fork, between, appended, given⟩ := gives_bind.mp given
    obtain ⟨-, -, rfl, rfl⟩ := gives_append.mp appended
    obtain ⟨_, ⟨⟩, given⟩ := gives_changeGraph_bind.mp given
    obtain ⟨same, rfl⟩ := gives_pure.mp given
    cases same
    refine ⟨_, .read name atom, rfl, by rw [Selector.fork, last], ?_⟩
    simp only [Draft.forked, Draft.appended, Selector.declare, Selector.states, Selector.edges,
      Selector.fork, Option.getD_some,
      if_true, ← last, map_cons, map_nil, Edge.moved]
    rfl

-- Lowering that gives the stack back as it was.
def Steady (lower : Lambda → Option String → LowerM Draft) : Prop :=
  ∀ f name? (d : Draft) rest mapped unnamed child b', Gives (lower f name?) ⟨d :: rest, mapped,
    unnamed⟩ child b' →
    ∃ mapped' unnamed', b' = ⟨d :: rest, mapped', unnamed'⟩

inductive CallsFrom (lower : Lambda → Option String → LowerM Draft) (pattern : String)
    (inputs outputs : List String) : Nat → List Lambda → List Node → Prop
  | nil (i : Nat) : CallsFrom lower pattern inputs outputs i [] []
  | cons {i : Nat} {f : Lambda} {fs : List Lambda} {node : Node} {nodes : List Node} :
    Calls lower f (pattern ++ "_sdfg_branch_" ++ i.repr) inputs outputs node →
    CallsFrom lower pattern inputs outputs (i + 1) fs nodes →
    CallsFrom lower pattern inputs outputs i (f :: fs) (node :: nodes)

def Draft.branched (d : Draft) (pattern : String) (operand : Operand) (source first i : Nat)
    (nodes : List Node) : Draft :=
  { d with
    graph := { d.graph with
      states := d.graph.states ++ branchesFrom pattern i nodes
      edges := d.graph.edges ++ partingFrom operand source first i nodes.length }
    terminal := if nodes.isEmpty = false ∧ source = d.terminal then d.graph.states.length else
      d.terminal }

theorem modify_last {α : Type} (xs : List α) (x : α) (f : α → α) :
    (xs ++ [x]).modify xs.length f = xs ++ [f x] := by
  induction xs with
  | nil => rfl
  | cons y ys ih => simpa using ih

theorem Draft.branched_cons (d : Draft) (pattern : String) (operand : Operand)
    (source first i : Nat) (node : Node) (nodes : List Node)
    (place : first + i = d.graph.states.length) (before : source < first) :
    (d.branched pattern operand source first i [node]).branched pattern operand source first
      (i + 1) nodes = d.branched pattern operand source first i (node :: nodes) := by
  have apart : source ≠ d.graph.states.length := by omega
  by_cases here : source = d.terminal
  · simp [branched, branchesFrom, partingFrom, here, here ▸ apart]
  · simp [branched, branchesFrom, partingFrom, here]

theorem gives_branchStates (steady : Steady kit.lower) {operand : Operand} {source first i : Nat}
    {ids : List Nat} (place : first + i = d.graph.states.length) (before : source < first)
    (given : Gives (Nested.branchStates kit pattern operand source inputs outputs i branches)
      ⟨d :: rest, mapped, unnamed⟩ ids b') :
    ∃ nodes mapped' unnamed', CallsFrom kit.lower pattern inputs outputs i branches nodes ∧
      ids = (List.range nodes.length).map (first + i + ·) ∧
      b' = ⟨d.branched pattern operand source first i nodes :: rest, mapped', unnamed'⟩ := by
  induction branches generalizing d mapped unnamed i ids b' with
  | nil =>
    obtain ⟨rfl, rfl⟩ := gives_pure.mp given
    refine ⟨[], mapped, unnamed, .nil i, rfl, ?_⟩
    simp [Draft.branched, branchesFrom, partingFrom, Graph.eta]
  | cons f fs ih =>
    rw [Nested.branchStates] at given
    obtain ⟨child, between, lowered, given⟩ := gives_bind.mp given
    obtain ⟨mapped', unnamed', rfl⟩ := steady _ _ _ _ _ _ _ _ lowered
    obtain ⟨state, between, appended, given⟩ := gives_bind.mp given
    obtain ⟨-, -, rfl, rfl⟩ := gives_append.mp appended
    obtain ⟨_, between, embedded, given⟩ := gives_bind.mp given
    obtain ⟨node, g, embeds, added, rfl⟩ := gives_embed embedded
    obtain ⟨-, rfl⟩ := addNode_eq_ok.mp added
    have built :
      ({ d.appended (pattern ++ "_state_branch_" ++ i.repr) (some ⟨operand, i⟩) {}
        ((some source).getD d.terminal) with
        graph := { (d.appended (pattern ++ "_state_branch_" ++ i.repr) (some ⟨operand, i⟩) {}
          ((some source).getD d.terminal)).graph with
          states := (d.appended (pattern ++ "_state_branch_" ++ i.repr) (some ⟨operand, i⟩) {}
            ((some source).getD d.terminal)).graph.states.modify d.graph.states.length (·.add node)
              } } : Draft) =
        d.branched pattern operand source first i [node] := by
      simp [Draft.appended, Draft.branched, branchesFrom, branchState, partingFrom, Graph.addState,
        Graph.addEdge, modify_last, State.add, place]
    rw [built] at given
    obtain ⟨later, between, others, given⟩ := gives_bind.mp given
    obtain ⟨rfl, rfl⟩ := gives_pure.mp given
    have next : first + (i + 1) = (d.branched pattern operand source first i
      [node]).graph.states.length := by
      simp [Draft.branched, branchesFrom, ← place]
      omega
    obtain ⟨nodes, mapped', unnamed', calls, rfl, rfl⟩ := ih next others
    refine ⟨node :: nodes, mapped', unnamed', .cons ⟨_, child, _, lowered, embeds⟩ calls, ?_, ?_⟩
    · rw [length_cons, range_succ_eq_map]
      simp [place, Function.comp_def]
      omega
    · rw [d.branched_cons pattern operand source first i node nodes place before]

theorem addNodes_last {g g' : Graph} {states : List State} {before emitted : List Node}
    (last : g.states = states ++ [⟨label, before⟩]) : g.addNodes states.length emitted = .ok g' ↔
    g' = { g with states := states ++ [⟨label, before ++ emitted⟩] } := by
  induction emitted generalizing g before with
  | nil =>
    rw [Graph.addNodes, append_nil, ← last, Graph.eta, Except.ok.injEq, eq_comm]
  | cons node rest ih =>
    rw [Graph.addNodes, bind_eq_ok]
    simp only [addNode_eq_ok, last, length_append, length_singleton, modify_last, State.add]
    constructor
    · rintro ⟨_, ⟨-, rfl⟩, others⟩
      obtain rfl := (ih rfl).mp others
      simp
    · rintro rfl
      exact ⟨_, ⟨by omega, rfl⟩, (ih rfl).mpr (by simp)⟩

theorem Promotes.restated {i : Nat} {g g' : Graph} {states : List State} {edges : List Edge}
    (promotes : Promotes pattern i pairs { g with states, edges } inputs g') :
    ∃ g₁, Promotes pattern i pairs g inputs g₁ ∧ g₁.states = g.states ∧ g₁.edges = g.edges ∧
    g' = { g₁ with states, edges } := by
  generalize same : ({ g with states, edges } : Graph) = from_ at promotes
  induction promotes generalizing g with
  | nil i _ =>
    subst same
    exact ⟨g, .nil i g, rfl, rfl, rfl⟩
  | array _ ih =>
    obtain ⟨g₁, promotes, states, edges, rfl⟩ := ih same
    exact ⟨g₁, .array promotes, states, edges, rfl⟩
  | @literal i s value rest _ _ _ inputs stored added _ ih =>
    subst same
    obtain ⟨array, dense, free, rfl⟩ := addConstant_eq_ok.mp added
    let bound : Graph := { g with
      arrays := g.arrays.insert (Nested.literalName pattern i) array
      constants := g.constants.insert (Nested.literalName pattern i) value }
    have first : g.addConstant (Nested.literalName pattern i) value = .ok bound :=
      addConstant_eq_ok.mpr ⟨array, dense, free, rfl⟩
    obtain ⟨g₁, promotes, states, edges, rfl⟩ := ih (g := bound) rfl
    exact ⟨g₁, .literal stored first promotes, states, edges, rfl⟩

end

theorem map_moved_partingFrom (operand : Operand) (source target first i count : Nat) :
    (partingFrom operand source target i count).map (·.moved first) =
      partingFrom operand (first + source) (first + target) i count := by
  induction count generalizing i with
  | zero => rfl
  | succ count ih =>
    rw [partingFrom, map_cons, ih, partingFrom]
    simp [Edge.moved, Nat.add_assoc]

theorem map_moved_meeting (source target count first : Nat) :
    (meeting source target count).map (·.moved first) = meeting (first + source)
      (first + target) count := by
  simp [meeting, Edge.moved, Function.comp_def, Nat.add_assoc]

-- What fills the state of an equation: a block, and what the graph declares for it.
inductive Fills (lower : Lambda → Option String → LowerM Draft) (names : List (Option String))
    (outputs : List String) (e : Equation) (label : String) (g : Graph) : Graph → Block → Prop
  | flat {nodes : Nodes} {emitted : List Node} : nodesOf? e.primitive = some nodes →
    nodes g.arrays names outputs e = .ok emitted →
    Fills lower names outputs e label g g (.single label emitted)
  | call {f : Lambda} {name : String} {inputs : List String} {node : Node} : e.primitive = "pjit" →
    Nested.allNames? names = some inputs → Params.lambda e.params "jaxpr" = .ok f →
    Calls lower f name inputs outputs node →
    Fills lower names outputs e label g g (.single label [node])
  | switch {name? : Option String} {others : List (Option String)} {atom : Atom} {atoms : List Atom}
    {branches : List Lambda}
    {inputs : List String} {g' : Graph} {selector : Selector} {nodes : List Node} :
    e.primitive = "cond" →
    names = name? :: others → e.inputs = atom :: atoms → atom.elem ≠ .bool →
    Params.lambdas e.params "branches" = .ok branches →
    Promotes label 0 (others.zip atoms) g inputs g' → Selects name? atom selector →
    CallsFrom lower label inputs outputs 0 branches nodes → nodes ≠ [] →
    Fills lower names outputs e label g (selector.declare g') (.switch label selector nodes)

section

variable {d : Draft} {rest : List Draft} {mapped unnamed : Nat} {b' : Builder}
  {names : List (Option String)} {e : Equation} {reported? : Option Nat}

def Draft.opened (d : Draft) (label : String) : Draft :=
  d.followedBy (.single label [])

theorem gives_append_opened {id : Nat} :
    Gives (append (some label) none {} none) ⟨d :: rest, mapped, unnamed⟩ id b' ↔
      Naming.isIdentifier label = true ∧ id = d.graph.states.length ∧
      b' = ⟨d.opened label :: rest, mapped, unnamed⟩ := by
  rw [gives_append]
  simp [Draft.opened, Draft.appended, Draft.followedBy, Block.single, Graph.addState, Graph.addEdge]

theorem gives_flat {apply : Apply} {nodes : Nodes} (flat : Flat apply nodes) :
    Gives (apply names outputs e d.graph.states.length) ⟨d.opened label :: rest, mapped, unnamed⟩
      reported? b' ↔
      reported? = none ∧ ∃ emitted, nodes d.graph.arrays names outputs e = .ok emitted ∧
        b' = ⟨d.followedBy (.single label emitted) :: rest, mapped, unnamed⟩ := by
  rw [(flat names outputs e _).gives_iff]
  have last : (d.opened label).graph.states = d.graph.states ++ [⟨label, []⟩] := rfl
  simp only [addNodes_last last, nil_append]
  constructor
  · rintro ⟨none, emitted, _, noded, rfl, rfl⟩
    exact ⟨none, emitted, noded, rfl⟩
  · rintro ⟨none, emitted, noded, rfl⟩
    exact ⟨none, emitted, _, noded, rfl, rfl⟩

theorem gives_checks {checks : List String} {fails : String → Bool} {cause : String → Error}
    {b : Builder} {u : Unit}
    (given : Gives (checks.forM fun key => if fails key = true then refuse (cause key) else pure ())
      b u b') : b' = b := by
  induction checks generalizing u with
  | nil => exact (gives_pure.mp given).2
  | cons key others ih =>
    rw [List.forM, gives_bind] at given
    obtain ⟨_, _, passed, given⟩ := given
    split at passed
    · exact absurd passed gives_refuse
    · obtain ⟨-, rfl⟩ := gives_pure.mp passed
      exact ih given

theorem gives_lowered_call (steady : Steady kit.lower) {f : Lambda} {name : String}
    (given : Gives (kit.lower f (some name) >>= fun child =>
        Nested.embed d.graph.states.length child inputs outputs >>= fun _ => pure none)
      ⟨d.opened label :: rest, mapped, unnamed⟩ reported? b') :
    reported? = none ∧ ∃ node mapped' unnamed', Calls kit.lower f name inputs outputs node ∧
      b' = ⟨d.followedBy (.single label [node]) :: rest, mapped', unnamed'⟩ := by
  obtain ⟨child, between, lowered, given⟩ := gives_bind.mp given
  obtain ⟨mapped', unnamed', rfl⟩ := steady _ _ _ _ _ _ _ _ lowered
  obtain ⟨_, _, embedded, given⟩ := gives_bind.mp given
  obtain ⟨node, g, embeds, added, rfl⟩ := gives_embed embedded
  obtain ⟨rfl, rfl⟩ := gives_pure.mp given
  obtain ⟨-, rfl⟩ := addNode_eq_ok.mp added
  refine ⟨rfl, node, mapped', unnamed', ⟨_, child, _, lowered, embeds⟩, ?_⟩
  simp [Draft.opened, Draft.followedBy, Block.single, modify_last, State.add]

theorem gives_call (steady : Steady kit.lower)
    (given : Gives (Nested.call kit names outputs e d.graph.states.length)
      ⟨d.opened label :: rest, mapped, unnamed⟩ reported? b') :
    reported? = none ∧ ∃ f name inputs node mapped' unnamed', Nested.allNames? names = some inputs ∧
      Params.lambda e.params "jaxpr" = .ok f ∧ Calls kit.lower f name inputs outputs node ∧
      b' = ⟨d.followedBy (.single label [node]) :: rest, mapped', unnamed'⟩ := by
  unfold Nested.call at given
  obtain ⟨_, between, checked, given⟩ := gives_bind.mp given
  obtain rfl := gives_checks checked
  split at given
  · exact absurd given gives_refuse
  next inputs known =>
    obtain ⟨f, callee, given⟩ := gives_lift_bind.mp given
    have found : ∃ name, Gives (kit.lower f (some name) >>= fun child =>
        Nested.embed d.graph.states.length child inputs outputs >>= fun _ => pure none)
      ⟨d.opened label :: rest, mapped, unnamed⟩ reported? b' := by
      dsimp only at given
      split at given
      · obtain ⟨name, -, given⟩ := gives_lift_bind.mp given
        exact ⟨_, given⟩
      · obtain ⟨name, _, read, given⟩ := gives_bind.mp given
        obtain ⟨-, rfl⟩ := gives_pure.mp read
        exact ⟨_, given⟩
    obtain ⟨name, given⟩ := found
    obtain ⟨none, node, mapped', unnamed', calls, rfl⟩ := gives_lowered_call steady given
    exact ⟨none, f, name, inputs, node, mapped', unnamed', known, callee, calls, rfl⟩

theorem foldl_addEdge (g : Graph) (ids : List Nat) (target : Nat) :
    ids.foldl (fun g source => g.addEdge { source, target }) g =
      { g with edges := g.edges ++ ids.map fun source => { source, target } } := by
  induction ids generalizing g with
  | nil => simp [Graph.eta]
  | cons id rest ih =>
    rw [foldl_cons, ih]
    simp [Graph.addEdge]

theorem length_branchesFrom (pattern : String) (i : Nat) (nodes : List Node) :
    (branchesFrom pattern i nodes).length = nodes.length := by
  induction nodes generalizing i with
  | nil => rfl
  | cons node rest ih => simp [branchesFrom, ih]

theorem Draft.followedBy_switch (d : Draft) (label : String) (selector : Selector) (node : Node)
    (nodes : List Node) :
    let fork := d.graph.states.length + selector.fork
    let branched := ((d.opened label).forked label selector).branched label selector.operand fork
      (fork + 1) 0 (node :: nodes)
    let joined := branched.appended (label ++ "_join") none {} (fork + 1)
    let others := (List.range nodes.length).map fun i =>
      ({ source := fork + 1 + (i + 1), target := branched.graph.states.length } : Edge)
    ({ joined with graph := { joined.graph with edges := joined.graph.edges ++ others } } : Draft) =
      ({ d with graph := selector.declare d.graph } : Draft).followedBy
        (.switch label selector (node :: nodes)) := by
  have parting : ∀ first source target,
    (partingFrom selector.operand source target 0 (nodes.length + 1)).map (·.moved first) = _ :=
    fun first source target => map_moved_partingFrom selector.operand source target first 0
      (nodes.length + 1)
  have met : ∀ first source target, (meeting source target (nodes.length + 1)).map (·.moved first) =
    _ :=
    fun first source target => map_moved_meeting source target (nodes.length + 1) first
  cases selector with
  | fixed value =>
    simp only [Selector.fork, Selector.declare, followedBy, appended, branched, forked, opened,
      Block.single, Block.switch,
      Selector.states, Selector.edges, Graph.addState, Graph.addEdge, length_cons, map_append,
      parting, met]
    simp [length_branchesFrom, meeting, range_succ_eq_map, Function.comp_def, Nat.add_comm 1]
  | read array =>
    simp only [Selector.fork, Selector.declare, followedBy, appended, branched, forked, opened,
      Block.single, Block.switch,
      Selector.states, Selector.edges, Graph.addState, Graph.addEdge, length_cons, map_append,
      parting, met, Graph.addSymbol]
    simp [length_branchesFrom, meeting, range_succ_eq_map, Function.comp_def, Nat.add_comm 2]

theorem gives_switch (steady : Steady kit.lower) (given : Gives (do
        let (operand, source) ← Nested.selection label name? atom d.graph.states.length
        match ← Nested.branchStates kit label operand source inputs outputs 0 branches with
        | [] => refuse (.invariant "cond without branches")
        | first :: others =>
          let join ← append (some (label ++ "_join")) none {} (some first)
          changeGraph fun g => .ok (others.foldl (fun g source => g.addEdge { source, target :=
            join }) g)
          return some join) ⟨d.opened label :: rest, mapped, unnamed⟩ reported? b') :
    ∃ selector nodes mapped' unnamed', Selects name? atom selector ∧
      CallsFrom kit.lower label inputs outputs 0 branches nodes ∧
      nodes ≠ [] ∧
      reported? = some (({ d with graph := selector.declare d.graph } : Draft).followedBy
        (.switch label selector nodes)).terminal ∧
      b' = ⟨({ d with graph := selector.declare d.graph } : Draft).followedBy
        (.switch label selector nodes) :: rest, mapped', unnamed'⟩ := by
  obtain ⟨⟨operand, source⟩, _, selected, given⟩ := gives_bind.mp given
  have last : (d.opened label).terminal + 1 = (d.opened label).graph.states.length := by
    simp [Draft.opened, Draft.followedBy, Block.single]
  obtain ⟨selector, selects, rfl, rfl, rfl⟩ := gives_selection last selected
  obtain ⟨ids, _, branched, given⟩ := gives_bind.mp given
  have place : d.graph.states.length + selector.fork + 1 + 0 =
    ((d.opened label).forked label selector).graph.states.length := by
    cases selector <;> simp [Draft.forked, Draft.opened, Draft.followedBy, Block.single,
      Selector.fork, Selector.states]
  obtain ⟨nodes, mapped', unnamed', calls, rfl, rfl⟩ :=
    gives_branchStates steady place (Nat.lt_succ_self _) branched
  rcases nodes with _ | ⟨node, nodes⟩
  · exact absurd given gives_refuse
  · rw [length_cons, range_succ_eq_map, map_cons] at given
    obtain ⟨join, _, appended, given⟩ := gives_bind.mp given
    obtain ⟨-, -, rfl, rfl⟩ := gives_append.mp appended
    obtain ⟨_, joined, given⟩ := gives_changeGraph_bind.mp given
    obtain ⟨rfl, rfl⟩ := gives_pure.mp given
    rw [foldl_addEdge] at joined
    cases joined
    refine ⟨selector, node :: nodes, mapped', unnamed', selects, calls, by simp, ?_, ?_⟩
    · simp [Draft.branched, length_branchesFrom, ← place, Draft.followedBy, Block.switch,
        Nat.add_assoc]
    · rw [← d.followedBy_switch label selector node nodes]
      simp [Function.comp_def]

theorem gives_cond (steady : Steady kit.lower)
    (given : Gives (Nested.cond kit names outputs e d.graph.states.length)
      ⟨d.opened label :: rest, mapped, unnamed⟩ reported? b') :
    ∃ name? others atom atoms branches inputs g selector nodes mapped' unnamed',
      names = name? :: others ∧ e.inputs = atom :: atoms ∧ atom.elem ≠ .bool ∧
      Params.lambdas e.params "branches" = .ok branches ∧ Promotes label 0
        (others.zip atoms) d.graph inputs g ∧
      Selects name? atom selector ∧ CallsFrom kit.lower label inputs outputs 0 branches nodes ∧
      nodes ≠ [] ∧ reported? = some (({ d with graph := selector.declare g } : Draft).followedBy
        (.switch label selector nodes)).terminal ∧
      b' = ⟨({ d with graph := selector.declare g } : Draft).followedBy
        (.switch label selector nodes) :: rest, mapped', unnamed'⟩ := by
  unfold Nested.cond at given
  split at given
  next name? others atom atoms operands =>
    obtain ⟨kind, given⟩ := gives_unless.mp given
    obtain ⟨branches, listed, given⟩ := gives_lift_bind.mp given
    rw [gives_graph_bind] at given
    obtain ⟨state, known, given⟩ := gives_lift_bind.mp given
    have opened : (d.opened label).graph.state d.graph.states.length = .ok ⟨label, []⟩ := by
      simp [Graph.state, Draft.opened, Draft.followedBy, Block.single]
    obtain rfl : state = ⟨label, []⟩ := Except.ok.inj (known.symm.trans opened)
    obtain ⟨inputs, _, promoted, given⟩ := gives_bind.mp given
    obtain ⟨g', moved, rfl⟩ := gives_promoteFrom promoted
    obtain ⟨g, promotes, states, edges, rfl⟩ := moved.restated
    have reopened : ({ d.opened label with graph := { g with
        states := (d.opened label).graph.states, edges := (d.opened label).graph.edges } } :
          Draft) =
        ({ d with graph := g } : Draft).opened label := by
      simp [Draft.opened, Draft.followedBy, states, edges]
    have count : d.graph.states.length = ({ d with graph := g } : Draft).graph.states.length := by
      rw [← states]
    obtain ⟨selector, nodes, mapped', unnamed', selects, calls, some, reported, rfl⟩ :=
      gives_switch (d := { d with graph := g }) steady (by
        rw [← reopened, ← count]
        exact given)
    exact ⟨name?, others, atom, atoms, branches, inputs, g, selector, nodes, mapped', unnamed', rfl,
      operands, by simpa using kind,
      listed, promotes, selects, calls, some, reported, rfl⟩
  · exact absurd given gives_refuse

end

end TraceFlow
