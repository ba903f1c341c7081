import TraceFlow.Proofs.Contraction
import TraceFlow.Proofs.LoweredDrafts
import TraceFlow.Proofs.Stages

set_option autoImplicit false

namespace TraceFlow

open Builder List

def Draft.block (d : Draft) : Block :=
  ⟨d.graph.states, d.graph.edges, d.terminal⟩

variable {i count mapped fuel : Nat} {e : Edge} {pattern : String} {selector : Selector}
  {d d' : Draft} {g g' : Graph} {inputs outputs : List String}
  {nodes : List Node} {f : Lambda} {lower : Lambda → Option String → LowerM Draft}

variable {first second block : Block}

namespace Block

def followedBy (first second : Block) : Block where
  states := first.states ++ second.states
  edges := first.edges ++ { source := first.terminal, target := first.states.length } ::
    second.edges.map (·.moved first.states.length)
  terminal := first.states.length + second.terminal

theorem mem_edges_followedBy (member : e ∈ (first.followedBy second).edges) : e ∈ first.edges ∨
    e = { source := first.terminal, target := first.states.length } ∨ ∃ e' ∈ second.edges,
    e = e'.moved first.states.length := by
  simpa [followedBy, eq_comm] using member

-- The edges of a block lead forward, and those of one state exclude each other.
structure Layered (block : Block) : Prop where
  forward : ∀ e ∈ block.edges, e.source < e.target ∧ e.target < block.states.length
  exclusive : block.edges.Pairwise fun e later => e.source = later.source → e.Excludes later
  inside : block.terminal < block.states.length
  idle : ∀ e ∈ block.edges, e.source ≠ block.terminal

-- Every state but the first is entered, and every state but the terminal one is left.
structure Joined (block : Block) : Prop where
  entered : ∀ id < block.states.length, 0 < id → ∃ e ∈ block.edges, e.target = id
  left : ∀ id < block.states.length, id ≠ block.terminal → ∃ e ∈ block.edges, e.source = id

end Block

-- Each guard is behind an edge, and the symbols it reads are set on all edges that lead to it.
def Guarded (start : Nat) (edges : List Edge) : Prop :=
  ∀ e ∈ edges, ∀ s ∈ e.guardSymbols, e.source ≠ start ∧ ∀ before ∈ edges, before.target = e.source →
    s ∈ before.assignments.keys

namespace Block

structure Shaped (block : Block) : Prop extends block.Layered, block.Joined where
  guarded : Guarded 0 block.edges

theorem Layered.followedBy (layered : first.Layered) (layered' : second.Layered) :
    (first.followedBy second).Layered := by
  have inside := layered.inside
  have inside' := layered'.inside
  refine ⟨?_, ?_, ?_, ?_⟩
  · intro e member
    simp only [Block.followedBy, length_append]
    rcases mem_edges_followedBy member with old | rfl | ⟨e, later, rfl⟩
    · have := layered.forward e old
      omega
    · simp only
      omega
    · have := layered'.forward e later
      simp only [Edge.moved]
      omega
  · rw [Block.followedBy, pairwise_append, pairwise_cons, pairwise_map]
    refine ⟨layered.exclusive, ⟨?_, ?_⟩, ?_⟩
    · intro e member same
      obtain ⟨e', -, rfl⟩ := mem_map.mp member
      simp only [Edge.moved] at same
      omega
    · refine layered'.exclusive.imp ?_
      intro e later excludes same
      exact (excludes (by simpa [Edge.moved] using same)).congr rfl rfl
    · intro e old later member same
      have before := layered.forward e old
      have idle := layered.idle e old
      rcases mem_cons.mp member with rfl | moved
      · exact absurd same idle
      · obtain ⟨e', -, rfl⟩ := mem_map.mp moved
        simp only [Edge.moved] at same
        omega
  · simp only [Block.followedBy, length_append]
    omega
  · intro e member
    simp only [Block.followedBy]
    rcases mem_edges_followedBy member with old | rfl | ⟨e, later, rfl⟩
    · have := layered.forward e old
      omega
    · simp only
      omega
    · have := layered'.idle e later
      simp only [Edge.moved]
      omega

theorem Joined.followedBy (joined : first.Joined) (joined' : second.Joined) :
    (first.followedBy second).Joined := by
  have early {e : Edge} (member : e ∈ first.edges) : e ∈ (first.followedBy second).edges :=
    mem_append_left _ member
  have between : { source := first.terminal, target :=
    first.states.length } ∈ (first.followedBy second).edges :=
    mem_append_right _ mem_cons_self
  have late {e : Edge} (member : e ∈ second.edges) :
    e.moved first.states.length ∈ (first.followedBy second).edges :=
    mem_append_right _ (mem_cons_of_mem _ (mem_map_of_mem member))
  have count : (first.followedBy second).states.length =
    first.states.length + second.states.length := length_append
  constructor
  · intro id inside positive
    rcases Nat.lt_trichotomy id first.states.length with before | rfl | behind
    · obtain ⟨e, member, target⟩ := joined.entered id before positive
      exact ⟨e, early member, target⟩
    · exact ⟨_, between, rfl⟩
    · obtain ⟨e, member, target⟩ := joined'.entered (id - first.states.length) (by omega) (by omega)
      refine ⟨_, late member, ?_⟩
      simp only [Edge.moved]
      omega
  · intro id inside other
    rcases Nat.lt_or_ge id first.states.length with before | behind
    · by_cases last : id = first.terminal
      · exact ⟨_, between, last.symm⟩
      · obtain ⟨e, member, source⟩ := joined.left id before last
        exact ⟨e, early member, source⟩
    · have away : id ≠ first.states.length + second.terminal := other
      obtain ⟨e, member, source⟩ := joined'.left (id - first.states.length) (by omega) (by omega)
      refine ⟨_, late member, ?_⟩
      simp only [Edge.moved]
      omega

theorem Shaped.followedBy (shaped : first.Shaped) (shaped' : second.Shaped) :
    (first.followedBy second).Shaped := by
  refine ⟨shaped.toLayered.followedBy shaped'.toLayered,
    shaped.toJoined.followedBy shaped'.toJoined, fun e member s used => ?_⟩
  have inside := shaped.inside
  rcases mem_edges_followedBy member with old | rfl | ⟨e, new, rfl⟩
  · obtain ⟨later, assigned⟩ := shaped.guarded e old s used
    have forward := shaped.forward e old
    refine ⟨later, fun before listed enters => ?_⟩
    rcases mem_edges_followedBy listed with known | rfl | ⟨before, -, rfl⟩
    · exact assigned before known enters
    · simp only at enters
      omega
    · simp only [Edge.moved] at enters
      omega
  · cases used
  · obtain ⟨later, assigned⟩ := shaped'.guarded e new s used
    refine ⟨by simp only [Edge.moved]; omega, fun before listed enters => ?_⟩
    simp only [Edge.moved] at enters
    rcases mem_edges_followedBy listed with known | rfl | ⟨before, known, rfl⟩
    · have forward := shaped.forward before known
      omega
    · simp only at enters
      omega
    · exact assigned before known (by simpa [Edge.moved] using enters)

theorem shaped_single (label : String) (nodes : List Node) : (single label nodes).Shaped :=
  ⟨⟨by simp [single], .nil, by simp [single], by simp [single]⟩,
    ⟨by simp [single], by simp [single]⟩, by simp [single, Guarded]⟩

end Block

theorem mem_partingFrom {operand : Operand} {source target : Nat}
    (member : e ∈ partingFrom operand source target i count) : ∃ k, i ≤ k ∧ k < i + count ∧
    e = { source, target := target + k, guard? := some ⟨operand, k⟩ } := by
  induction count generalizing i with
  | zero => cases member
  | succ count ih =>
    rcases mem_cons.mp member with rfl | later
    · exact ⟨i, Nat.le_refl i, by omega, rfl⟩
    · obtain ⟨k, low, high, same⟩ := ih later
      exact ⟨k, by omega, by omega, same⟩

theorem exclusive_partingFrom (operand : Operand) (source target i count : Nat) :
    (partingFrom operand source target i count).Pairwise fun e later => e.Excludes later := by
  induction count generalizing i with
  | zero => exact .nil
  | succ count ih =>
    refine .cons ?_ (ih (i + 1))
    intro later member
    obtain ⟨k, low, -, rfl⟩ := mem_partingFrom member
    exact ⟨operand, i, k, rfl, rfl, by omega⟩

theorem mem_meeting {source target : Nat} (member : e ∈ meeting source target count) :
    ∃ i < count, e = { source := source + i, target } := by
  obtain ⟨i, inside, rfl⟩ := mem_map.mp member
  exact ⟨i, mem_range.mp inside, rfl⟩

theorem distinct_meeting (source target count : Nat) :
    (meeting source target count).Pairwise fun e later => e.source ≠ later.source := by
  rw [meeting, pairwise_map]
  exact pairwise_lt_range.imp fun before => by simp; omega

theorem mem_branchesFrom {s : State} (member : s ∈ branchesFrom pattern i nodes) :
    ∃ node ∈ nodes, s.nodes = [node] := by
  induction nodes generalizing i with
  | nil => cases member
  | cons node rest ih =>
    rcases mem_cons.mp member with rfl | later
    · exact ⟨node, mem_cons_self, rfl⟩
    · obtain ⟨other, inside, same⟩ := ih later
      exact ⟨other, mem_cons_of_mem node inside, same⟩

theorem Selector.mem_edges (member : e ∈ selector.edges) : e.source = 0 ∧ e.target = 1 ∧
    selector.fork = 1 := by
  cases selector with
  | fixed value => cases member
  | read array =>
    rw [mem_singleton.mp member]
    exact ⟨rfl, rfl, rfl⟩

theorem Selector.length_states (pattern : String) (selector : Selector) :
    (selector.states pattern).length = selector.fork := by
  cases selector <;> rfl

theorem Block.length_switch (pattern : String) (selector : Selector) (nodes : List Node) :
    (Block.switch pattern selector nodes).states.length = selector.fork + nodes.length + 2 := by
  simp [Block.switch, selector.length_states, length_branchesFrom]
  omega

theorem Block.layered_switch (pattern : String) (selector : Selector) (nodes : List Node) :
    (Block.switch pattern selector nodes).Layered := by
  have count := Block.length_switch pattern selector nodes
  refine ⟨?_, ?_, ?_, ?_⟩
  · intro e member
    rw [count]
    simp only [Block.switch, mem_append] at member
    rcases member with (lead | part) | meet
    · have := Selector.mem_edges lead
      omega
    · obtain ⟨k, -, inside, rfl⟩ := mem_partingFrom part
      simp only
      omega
    · obtain ⟨i, inside, rfl⟩ := mem_meeting meet
      simp only
      omega
  · simp only [Block.switch, pairwise_append]
    refine ⟨⟨?_, ?_, ?_⟩, ?_, ?_⟩
    · cases selector with
      | fixed value => exact .nil
      | read array => exact pairwise_singleton _ _
    · refine (exclusive_partingFrom _ _ _ _ _).imp ?_
      intro e later excludes _
      exact excludes
    · intro e lead later part same
      obtain ⟨source, -, fork⟩ := Selector.mem_edges lead
      obtain ⟨k, -, -, rfl⟩ := mem_partingFrom part
      simp only at same
      omega
    · exact (distinct_meeting _ _ _).imp fun differ same => absurd same differ
    · intro e earlier later meet same
      obtain ⟨i, -, rfl⟩ := mem_meeting meet
      simp only at same
      rcases mem_append.mp earlier with lead | part
      · have := Selector.mem_edges lead
        omega
      · obtain ⟨k, -, -, rfl⟩ := mem_partingFrom part
        simp only at same
        omega
  · rw [count, Block.switch]
    simp only
    omega
  · intro e member
    simp only [Block.switch, mem_append] at member ⊢
    rcases member with (lead | part) | meet
    · have := Selector.mem_edges lead
      omega
    · obtain ⟨k, -, -, rfl⟩ := mem_partingFrom part
      simp only
      omega
    · obtain ⟨i, inside, rfl⟩ := mem_meeting meet
      simp only
      omega

theorem partingFrom_mem (operand : Operand) (source target : Nat) {k : Nat} (low : i ≤ k)
    (high : k < i + count) :
    ({ source, target := target + k, guard? := some ⟨operand, k⟩ } : Edge) ∈ partingFrom operand
      source target i count := by
  induction count generalizing i with
  | zero => omega
  | succ count ih =>
    by_cases here : i = k
    · subst here
      exact mem_cons_self
    · exact mem_cons_of_mem _ (ih (by omega) (by omega))

theorem meeting_mem (source target : Nat) (inside : i < count) :
    ({ source := source + i, target } : Edge) ∈ meeting source target count :=
  mem_map.2 ⟨i, mem_range.2 inside, rfl⟩

theorem Block.joined_switch (pattern : String) (selector : Selector) (some : nodes ≠ []) :
    (Block.switch pattern selector nodes).Joined := by
  have count := Block.length_switch pattern selector nodes
  have branches : 0 < nodes.length := length_pos_iff.2 some
  have lead : 0 < selector.fork → ∃ e ∈ selector.edges, e.source = 0 ∧ e.target = 1 ∧
    selector.fork = 1 := by
    cases selector with
    | fixed value => simp [Selector.fork]
    | read array => simp [Selector.edges, Selector.fork]
  constructor
  · intro id inside positive
    rw [count] at inside
    simp only [Block.switch]
    -- The fork, then the branches in a row, then the join.
    rcases Nat.lt_or_ge selector.fork id with behind | upTo
    · rcases Nat.lt_or_ge id (selector.fork + 1 + nodes.length) with branch | last
      · refine ⟨_, mem_append_left _
          (mem_append_right _ (partingFrom_mem selector.operand selector.fork (selector.fork + 1)
          (Nat.zero_le (id - (selector.fork + 1))) (by omega))), ?_⟩
        simp only
        omega
      · refine ⟨_, mem_append_right _
          (meeting_mem (selector.fork + 1) (selector.fork + 1 + nodes.length) branches), ?_⟩
        simp only
        omega
    · obtain ⟨e, member, -, target, fork⟩ := lead (by omega)
      exact ⟨e, mem_append_left _ (mem_append_left _ member), by omega⟩
  · intro id inside other
    rw [count] at inside
    simp only [Block.switch] at other ⊢
    rcases Nat.lt_trichotomy id selector.fork with before | rfl | behind
    · obtain ⟨e, member, source, -, fork⟩ := lead (by omega)
      exact ⟨e, mem_append_left _ (mem_append_left _ member), by omega⟩
    · exact ⟨_, mem_append_left _
        (mem_append_right _ (partingFrom_mem selector.operand selector.fork (selector.fork + 1)
        (Nat.zero_le 0) (by omega))), rfl⟩
    · refine ⟨_, mem_append_right _
        (meeting_mem (selector.fork + 1) (selector.fork + 1 + nodes.length)
        (by omega : id - (selector.fork + 1) < nodes.length)), ?_⟩
      simp only
      omega

theorem guarded_switch (pattern : String) (selector : Selector) (nodes : List Node) :
    Guarded 0 (Block.switch pattern selector nodes).edges := by
  intro e member s used
  simp only [Block.switch, mem_append] at member
  rcases member with (lead | part) | meet
  · cases selector with
    | fixed value => cases lead
    | read array =>
      obtain rfl := mem_singleton.mp lead
      cases used
  · obtain ⟨k, -, -, rfl⟩ := mem_partingFrom part
    cases selector with
    | fixed value => cases used
    | read array =>
      obtain rfl := mem_singleton.mp used
      refine ⟨Nat.one_ne_zero, fun before listed enters => ?_⟩
      simp only [Block.switch, mem_append] at listed
      simp only [Selector.fork] at enters
      rcases listed with (lead | part) | meet
      · obtain rfl := mem_singleton.mp lead
        exact Dict.mem_keys_ofList.mpr mem_cons_self
      · obtain ⟨k, -, -, rfl⟩ := mem_partingFrom part
        simp only [Selector.fork] at enters
        omega
      · obtain ⟨i, -, rfl⟩ := mem_meeting meet
        simp only [Selector.fork] at enters
        omega
  · obtain ⟨i, -, rfl⟩ := mem_meeting meet
    cases used

theorem Block.shaped_switch (pattern : String) (selector : Selector) (some : nodes ≠ []) :
    (Block.switch pattern selector nodes).Shaped :=
  ⟨layered_switch pattern selector nodes, joined_switch pattern selector some,
    guarded_switch pattern selector nodes⟩

theorem Fills.shaped {names : List (Option String)} {e : Equation} {label : String}
    (fills : Fills lower names outputs e label g g' block) : block.Shaped := by
  cases fills with
  | flat => exact Block.shaped_single _ _
  | call => exact Block.shaped_single _ _
  | switch _ _ _ _ _ _ _ _ some => exact Block.shaped_switch _ _ some

theorem Draft.block_followedBy (d : Draft) (block : Block) :
    (d.followedBy block).block = d.block.followedBy block :=
  rfl

def Draft.machine (d : Draft) : Block × Nat × Nat :=
  (d.block, d.start, d.graph.start)

theorem Promotes.eq {pairs : List (Option String × Atom)}
    (promotes : Promotes pattern i pairs g inputs g') :
    g' = { g with arrays := g'.arrays, constants := g'.constants } := by
  induction promotes with
  | nil i g => exact g.eta.symm
  | array _ ih => exact ih
  | literal _ added _ ih =>
    obtain ⟨array, -, -, rfl⟩ := addConstant_eq_ok.mp added
    exact ih

theorem bindAll_eq {pairs : List (String × Tensor)} (bound : bindAll g pairs = .ok g') :
    g' = { g with constants := g'.constants } := by
  induction pairs generalizing g with
  | nil =>
    cases bound
    exact (Graph.eta _).symm
  | cons pair rest ih =>
    obtain ⟨g₁, here, others⟩ := bind_eq_ok.mp bound
    obtain ⟨_, _, -, -, -, rfl⟩ := bindConstant_eq_ok here
    have later := ih others
    exact later

theorem Builder.Creates.eq {before : String} {vs : List Var} {names : List String}
    (creates : Creates before d mapped vs names d') :
    d' = { d with graph := { d.graph with arrays := d'.graph.arrays }, names := d'.names } := by
  induction creates with
  | nil d _ => exact congrArg (fun g => { d with graph := g }) d.graph.eta.symm
  | cons _ _ _ ih => exact ih

theorem Builder.Creates.machine_eq {before : String} {vs : List Var} {names : List String}
    (creates : Creates before d mapped vs names d') : d'.machine = d.machine := by
  rw [creates.eq]
  rfl

theorem Constants.machine_eq {mapped' : Nat} (constants : Constants f d mapped d' mapped') :
    d'.machine = d.machine := by
  cases constants with
  | none => rfl
  | some _ creates bound =>
    rw [← creates.machine_eq, bindAll_eq bound]
    rfl

theorem Fills.graph_eq {names : List (Option String)} {e : Equation} {label : String}
    (fills : Fills lower names outputs e label g g' block) :
    g' = { g with arrays := g'.arrays, constants := g'.constants, symbols := g'.symbols } := by
  cases fills with
  | flat => exact g.eta.symm
  | call => exact g.eta.symm
  | @switch _ _ _ _ _ _ promoted selector _ _ _ _ _ _ promotes =>
    rw [promotes.eq]
    cases selector <;> rfl

theorem PlacesEquation.machine_eq {opened : Draft} {e : Equation} {names : List (Option String)}
    (places : PlacesEquation lower d mapped e names outputs opened g block) :
    ({ opened with graph := g } : Draft).machine = d.machine := by
  rw [← places.creates.machine_eq, places.fills.graph_eq]
  rfl

-- What lowering keeps true of the states of a draft.
structure Draft.Formed (d : Draft) : Prop extends d.block.Shaped where
  start : d.start = 0
  first : d.graph.start = 0

namespace Draft.Formed

theorem new (title : String) : (Draft.new title).Formed :=
  ⟨Block.shaped_single _ _, rfl, rfl⟩

theorem leads (formed : d.Formed) (member : e ∈ d.graph.edges) :
    e.source < e.target ∧ e.target < d.graph.states.length :=
  formed.forward e member

theorem congr (formed : d.Formed) (same : d'.machine = d.machine) : d'.Formed := by
  simp only [Draft.machine, Prod.mk.injEq] at same
  obtain ⟨block, start, first⟩ := same
  exact ⟨block ▸ formed.toShaped, start.trans formed.start, first.trans formed.first⟩

theorem step {equations : List Equation} (step : LowersStep lower equations d d')
    (formed : d.Formed) : d'.Formed := by
  cases step with
  | places _ places =>
    have filled := formed.congr places.machine_eq
    exact ⟨filled.toShaped.followedBy places.fills.shaped, filled.start, filled.first⟩
  | copies made =>
    have length {state : Nat} {node : Node} :
      (d.graph.states.modify state (·.add node)).length = d.graph.states.length := length_modify ..
    refine ⟨⟨⟨?_, formed.exclusive, ?_, formed.idle⟩, ⟨?_, ?_⟩, formed.guarded⟩, formed.start,
      formed.first⟩
    all_goals simp only [Draft.block, length]
    · exact formed.forward
    · exact formed.inside
    · exact formed.entered
    · exact formed.left
  | unmaps _ => exact formed.congr rfl

theorem body {title : String} (body : LowersBody lower f (Draft.new title) mapped outputs d) :
    d.Formed := by
  refine body.preserves (fun constants creates => ?_) step
  exact (new title).congr (creates.machine_eq.trans constants.machine_eq)

end Draft.Formed

theorem Lowers.formed (lowers : Lowers fuel f d) : d.Formed := by
  obtain ⟨title, mapped, outputs, body, lowered, rfl⟩ := lowers
  exact (Draft.Formed.body lowered).congr rfl

end TraceFlow
