import TraceFlow.Graph.Simplify
import TraceFlow.Machine.Program
import TraceFlow.Proofs.Outcome

set_option autoImplicit false

namespace TraceFlow

open List

namespace Graph

variable {g : Graph} {site : CallSite}

def nodes (g : Graph) : List Node :=
  g.states.flatMap State.nodes

theorem sizeOf_lt_of_call {callee : Graph} (member : Node.call site callee ∈ g.nodes) :
    sizeOf callee < sizeOf g := by
  obtain ⟨⟨label, nodes⟩, state, node⟩ := mem_flatMap.mp member
  obtain ⟨name, arrays, constants, symbols, states, edges, start, args⟩ := g
  have inState := sizeOf_lt_of_mem node
  have inGraph := sizeOf_lt_of_mem state
  simp only [Node.call.sizeOf_spec, State.mk.sizeOf_spec, Graph.mk.sizeOf_spec] at *
  omega

theorem nested_induction {P : Graph → Prop}
    (step : ∀ g : Graph, (∀ site callee, Node.call site callee ∈ g.nodes → P callee) → P g)
    (g : Graph) : P g :=
  step g fun _ callee _ => nested_induction step callee
termination_by sizeOf g
decreasing_by exact sizeOf_lt_of_call ‹_›

-- A property of a graph, of the graphs it calls, and so on.
inductive Everywhere (P : Graph → Prop) : Graph → Prop
  | intro (g : Graph) : P g → (∀ site callee, Node.call site callee ∈ g.nodes →
    Everywhere P callee) →
    Everywhere P g

variable {P : Graph → Prop}

theorem Everywhere.here (all : g.Everywhere P) : P g := by
  cases all
  assumption

theorem Everywhere.imp {Q : Graph → Prop} (all : g.Everywhere P) (implies : ∀ g, P g → Q g) :
    g.Everywhere Q := by
  induction all with
  | intro g here _ ih => exact .intro g (implies g here) ih

theorem Everywhere.callee (all : g.Everywhere P) {callee : Graph}
    (member : Node.call site callee ∈ g.nodes) : callee.Everywhere P := by
  cases all with
  | intro _ _ below => exact below site callee member

def simplifyNode : Node → Outcome Node
  | .copy source target => .ok (.copy source target)
  | .map m => .ok (.map m)
  | .call site callee => do return .call site (← simplify callee)

def simplifyState (s : State) : Outcome State := do
  return ⟨s.label, ← s.nodes.mapM simplifyNode⟩

theorem simplifyNodes_eq (nodes : List Node) : simplifyNodes nodes = nodes.mapM simplifyNode := by
  induction nodes with
  | nil => rfl
  | cons node rest ih =>
    cases node with
    | copy source target => simp [simplifyNodes, simplifyNode, ih]
    | map m => simp [simplifyNodes, simplifyNode, ih]
    | call site callee => simp [simplifyNodes, simplifyNode, ih]

theorem simplifyStates_eq (states : List State) :
    simplifyStates states = states.mapM simplifyState := by
  induction states with
  | nil => rfl
  | cons s rest ih =>
    obtain ⟨label, nodes⟩ := s
    simp [simplifyStates, simplifyState, simplifyNodes_eq, ih]

theorem simplify_eq (g : Graph) :
    g.simplify = (do collapse { g with states := ← g.states.mapM simplifyState }) := by
  obtain ⟨name, arrays, constants, symbols, states, edges, start, args⟩ := g
  simp [simplify, simplifyStates_eq]

end Graph

namespace Effect

theorem skip_andThen (f : Effect) : skip.andThen f = f := rfl

theorem andThen_assoc (f f' f'' : Effect) : (f.andThen f').andThen f'' = f.andThen
    (f'.andThen f'') := by
  funext memory symbols
  simp only [andThen]
  cases f memory symbols <;> rfl

end Effect

namespace Program

def compileNode : Node → Outcome Effect
  | .copy source target => .ok (.copy source target)
  | .map m => do return .map (← prepare m)
  | .call site callee => do return .call site callee.arrays (← compile callee).run

def compileState (s : State) : Outcome Effect :=
  compileNodes s.nodes

theorem compileNodes_cons (node : Node) (rest : List Node) : compileNodes (node :: rest) = (do
      let first ← compileNode node
      return first.andThen (← compileNodes rest)) := by
  cases node with
  | copy source target => simp [compileNodes, compileNode]
  | map m => simp [compileNodes, compileNode]
  | call site callee => simp [compileNodes, compileNode]

theorem compileNodes_append (first second : List Node) : compileNodes (first ++ second) = (do
      let f ← compileNodes first
      return f.andThen (← compileNodes second)) := by
  induction first with
  | nil =>
    cases compiled : compileNodes second <;> simp [compileNodes, Effect.skip_andThen, compiled]
  | cons node rest ih => simp [compileNodes_cons, ih, Effect.andThen_assoc]

theorem compileStates_eq (states : List State) :
    compileStates states = states.mapM compileState := by
  induction states with
  | nil => rfl
  | cons s rest ih =>
    obtain ⟨label, nodes⟩ := s
    simp [compileStates, compileState, ih]

theorem compile_eq (g : Graph) : compile g = (do return ⟨g, ← g.states.mapM compileState⟩) := by
  obtain ⟨name, arrays, constants, symbols, states, edges, start, args⟩ := g
  simp [compile, compileStates_eq]

theorem compile_eq_ok {g : Graph} {p : Program} : compile g = .ok p ↔ p.graph = g ∧
    g.states.mapM compileState = .ok p.effects := by
  obtain ⟨graph, effects⟩ := p
  simp only [compile_eq, bind_eq_ok, Outcome.pure_eq, Except.ok.injEq, Program.mk.injEq]
  constructor
  · rintro ⟨found, compiled, rfl, rfl⟩
    exact ⟨rfl, compiled⟩
  · rintro ⟨rfl, compiled⟩
    exact ⟨effects, compiled, rfl, rfl⟩

theorem succeeds_compileNodes {nodes : List Node} : (compileNodes nodes).Succeeds ↔ ∀ node ∈ nodes,
    (compileNode node).Succeeds := by
  induction nodes with
  | nil => simp [compileNodes, Outcome.Succeeds]
  | cons node rest ih =>
    simp only [compileNodes_cons, mem_cons, forall_eq_or_imp, ← ih]
    cases compileNode node with
    | error failure => simp
    | ok first => cases compileNodes rest <;> simp

theorem succeeds_compile {g : Graph} : (compile g).Succeeds ↔ ∀ node ∈ g.nodes,
    (compileNode node).Succeeds := by
  have states : (compile g).Succeeds ↔ ∀ s ∈ g.states, (compileState s).Succeeds := by
    rw [compile_eq, ← Outcome.succeeds_mapM]
    cases g.states.mapM compileState <;> simp
  rw [states]
  simp only [compileState, succeeds_compileNodes, Graph.nodes, mem_flatMap]
  grind

end Program

end TraceFlow
