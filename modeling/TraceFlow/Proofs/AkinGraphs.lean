import TraceFlow.Proofs.Likewise
import TraceFlow.Proofs.Simplification

set_option autoImplicit false

namespace TraceFlow

open List

namespace Graph

open Outcome

-- The same graph with another title, and states that may have other labels.
def relabelled (g : Graph) (title : String) (states : List State) : Graph :=
  { g with name := title, states := states }

def Akin (g g' : Graph) : Prop :=
  g' = g.relabelled g'.name g'.states ∧ g'.states.map State.nodes = g.states.map State.nodes

theorem Akin.symm {g g' : Graph} (akin : g.Akin g') : g'.Akin g := by
  refine ⟨?_, akin.2.symm⟩
  rw [akin.1]
  cases g
  rfl

theorem Akin.trans {g g' g'' : Graph} (first : g.Akin g') (second : g'.Akin g'') : g.Akin g'' := by
  refine ⟨?_, second.2.trans first.2⟩
  rw [second.1, first.1]
  rfl

namespace Akin

variable {g g' : Graph}

variable (akin : g.Akin g')

include akin

theorem length_states : g'.states.length = g.states.length := by
  rw [← length_map State.nodes, akin.2, length_map]

theorem arrays : g'.arrays = g.arrays := by
  rw [akin.1]
  rfl

theorem edges : g'.edges = g.edges := by
  rw [akin.1]
  rfl

theorem start : g'.start = g.start := by
  rw [akin.1]
  rfl

theorem args : g'.args = g.args := by
  rw [akin.1]
  rfl

theorem constants : g'.constants = g.constants := by
  rw [akin.1]
  rfl

theorem symbols : g'.symbols = g.symbols := by
  rw [akin.1]
  rfl

theorem similar : g.Similar g' :=
  ⟨akin.arrays ▸ Descriptor.Similar.same _, akin.symbols, akin.args⟩

theorem freeSymbols : g'.freeSymbols = g.freeSymbols := by
  have used (states : List State) :
    (states.flatMap fun s => s.nodes.flatMap Node.symbols) = (states.map State.nodes).flatMap
      fun nodes => nodes.flatMap Node.symbols := by
    rw [flatMap_map]
  simp only [Graph.freeSymbols, used, akin.2, akin.edges, akin.symbols]

theorem reachable : g'.reachable = g.reachable := by
  have visit (fuel : Nat) (queue seen : List Nat) :
    g'.visit fuel queue seen = g.visit fuel queue seen := by
    induction fuel generalizing queue seen with
    | zero => rfl
    | succ fuel ih =>
      cases queue with
      | nil => rfl
      | cons id queue => simp only [Graph.visit, ih, successors, outEdges, akin.edges]
  simp only [Graph.reachable, visit, akin.edges, akin.start]

theorem checkStates : Likewise Eq (Graph.checkStates g) (Graph.checkStates g') := by
  have has (id : Nat) : g'.hasState id = g.hasState id := by
    simp only [hasState, akin.length_states]
  have edge (e : Edge) : Likewise Eq (checkEdge g e) (checkEdge g' e) := by
    simp only [checkEdge, has]
    exact .ite (fun _ => .fails rfl) fun _ => .forM fun entry _ => akin.similar.checkBinding entry.1
      entry.2
  simp only [Graph.checkStates, has, akin.start, akin.edges, akin.reachable, akin.length_states]
  exact .ite (fun _ => .fails rfl) fun _ => .seq (.forM fun e _ => edge e) fun _ => .ite
    (fun _ => .fails rfl) fun _ => .gives rfl

theorem checkStateList (id : Nat) (states states' : List State)
    (same : states'.map State.nodes = states.map State.nodes) :
    Likewise Eq (Graph.checkStateList g id states) (Graph.checkStateList g' id states') := by
  induction states generalizing id states' with
  | nil =>
    obtain rfl := map_eq_nil_iff.mp same
    exact .gives rfl
  | cons s rest ih =>
    obtain ⟨label, nodes⟩ := s
    obtain ⟨⟨label', nodes'⟩, rest', rfl, head, tail⟩ := map_eq_cons_iff.mp same
    obtain rfl : nodes' = nodes := head
    simp only [Graph.checkStateList, checkNodes_eq]
    exact .seq (.forM fun node _ => akin.similar.checkNode id id node) fun _ => ih (id + 1) rest'
      tail

theorem check : Likewise Eq g.check g'.check := by
  rw [check_eq, check_eq, akin.constants]
  refine .seq akin.checkStates fun _ => .seq (akin.checkStateList 0 _ _ akin.2) fun _ => ?_
  exact .seq (.forM fun name _ => akin.similar.checkConstant name) fun _ =>
    akin.similar.checkSignature

theorem state (id : Nat) : Likewise (fun s s' => s'.nodes = s.nodes) (g.state id)
    (g'.state id) := by
  have nodes : (g'.states[id]?).map State.nodes = (g.states[id]?).map State.nodes := by
    rw [← getElem?_map, akin.2, getElem?_map]
  unfold Graph.state
  cases found : g.states[id]? with
  | none =>
    rw [found, Option.map_none, Option.map_eq_none_iff] at nodes
    rw [nodes]
    exact .fails rfl
  | some s =>
    rw [found, Option.map_some, Option.map_eq_some_iff] at nodes
    obtain ⟨s', found', same⟩ := nodes
    rw [found']
    exact .gives same

theorem rewired {states states' : List State} (same : states'.map State.nodes =
    states.map State.nodes) (edges : List Edge) (start : Nat) :
    (g.rewired states edges start).Akin (g'.rewired states' edges start) := by
  refine ⟨?_, same⟩
  rw [akin.1]
  rfl

theorem dropState (id : Nat) : (g.dropState id).Akin (g'.dropState id) := by
  have kept : (g'.states.eraseIdx id).map State.nodes = (g.states.eraseIdx id).map State.nodes := by
    rw [← eraseIdx_map, ← eraseIdx_map, akin.2]
  have dropped (h : Graph) : h.dropState id = h.rewired (h.states.eraseIdx id)
      ((h.edges.filter fun e => e.source ≠ id ∧ e.target ≠ id).map fun e =>
        { e with source := shifted id e.source, target := shifted id e.target })
      (shifted id h.start) := rfl
  rw [dropped, dropped, akin.edges, akin.start]
  exact akin.rewired kept _ _

theorem inDegree (id : Nat) : g'.inDegree id = g.inDegree id := by
  simp only [Graph.inDegree, inEdges, akin.edges]

theorem dropEmptyStart? :
    Likewise (Option.Rel Graph.Akin) g.dropEmptyStart? g'.dropEmptyStart? := by
  have out : g'.outEdges g.start = g.outEdges g.start := by
    simp only [outEdges, akin.edges]
  unfold Graph.dropEmptyStart?
  rw [akin.start]
  refine (akin.state g.start).bind fun s s' same => ?_
  simp only [State.isEmpty, same, akin.inDegree, out]
  refine .ite (fun _ => .gives .none) fun _ => ?_
  rcases g.outEdges g.start with _ | ⟨e, _ | ⟨second, others⟩⟩
  · exact .gives .none
  · refine .ite (fun _ => .gives (.some ?_)) fun _ => .gives .none
    have moved : (g.rewired g.states g.edges e.target).Akin
      (g'.rewired g'.states g'.edges e.target) := akin.edges ▸ akin.rewired akin.2 _ _
    exact moved.dropState g.start
  · exact .gives .none

theorem bypassFrom? (id : Nat) (states states' : List State)
    (same : states'.map State.nodes = states.map State.nodes) :
    Option.Rel Graph.Akin (g.bypassFrom? id states) (g'.bypassFrom? id states') := by
  induction states generalizing id states' with
  | nil =>
    obtain rfl := map_eq_nil_iff.mp same
    exact .none
  | cons s rest ih =>
    obtain ⟨s', rest', rfl, head, tail⟩ := map_eq_cons_iff.mp same
    have bypass : g'.bypass? id s' = g.bypass? id s := by
      rw [akin.1]
      simp only [bypass?, State.isEmpty, head]
      rfl
    simp only [Graph.bypassFrom?, bypass]
    cases g.bypass? id s with
    | none => exact ih (id + 1) rest' tail
    | some e =>
      have added (h : Graph) : h.addEdge e = h.rewired h.states (h.edges ++ [e]) h.start := rfl
      refine .some (dropState ?_ id)
      rw [added, added, akin.edges, akin.start]
      exact akin.rewired akin.2 _ _

theorem fuse (position : Nat) (e : Edge) : Likewise Graph.Akin (g.fuse position e)
    (g'.fuse position e) := by
  refine (akin.state e.target).bind fun last last' same => (akin.state e.source).bind fun _ _ _ =>
    .gives ?_
  let joined (states : List State) (tail : State) :=
    states.modify e.source fun s => { s with nodes := s.nodes ++ tail.nodes }
  let moved (edges : List Edge) := (edges.eraseIdx position).map fun other => if other.source =
    e.target then { other with source := e.source } else other
  have appended : (joined g'.states last').map State.nodes =
    (joined g.states last).map State.nodes := by
    have mapped (states : List State) (tail : State) :
      (joined states tail).map State.nodes = (states.map State.nodes).modify e.source (· ++
        tail.nodes) := by
      apply ext_getElem?
      intro i
      simp only [joined, getElem?_map, getElem?_modify]
      cases states[i]? <;> by_cases here : e.source = i <;> simp [here]
    rw [mapped, mapped, akin.2, same]
  have fused : (g.rewired (joined g.states last) (moved g.edges) g.start).Akin
    (g'.rewired (joined g'.states last') (moved g'.edges) g'.start) := by
    rw [akin.edges, akin.start]
    exact akin.rewired appended _ _
  exact fused.dropState e.target

theorem step? : Likewise (Option.Rel Graph.Akin) g.step? g'.step? := by
  refine akin.dropEmptyStart?.bind fun first? first?' related => ?_
  cases related with
  | some stepped => exact .gives (.some stepped)
  | none =>
    have bypassed := akin.bypassFrom? 0 g.states g'.states akin.2
    simp only [dropPassThrough?]
    generalize g.bypassFrom? 0 g.states = second? at bypassed
    generalize g'.bypassFrom? 0 g'.states = second?' at bypassed
    cases bypassed with
    | some stepped => exact .gives (.some stepped)
    | none =>
      have chain (e : Edge) : g'.isChain e = g.isChain e := by
        rw [akin.1]
        rfl
      have fuseFrom? (position : Nat) (edges : List Edge) :
        Likewise (Option.Rel Graph.Akin) (g.fuseFrom? position edges)
          (g'.fuseFrom? position edges) := by
        induction edges generalizing position with
        | nil => exact .gives .none
        | cons e rest ih =>
          simp only [Graph.fuseFrom?, chain]
          exact .ite (fun _ => (akin.fuse position e).bind fun _ _ fused => .gives (.some fused))
            fun _ => ih _
      simp only [fuseChain?, akin.edges]
      exact fuseFrom? 0 g.edges

theorem collapseWith (fuel : Nat) : Likewise Graph.Akin (Graph.collapseWith fuel g)
    (Graph.collapseWith fuel g') := by
  induction fuel generalizing g g' with
  | zero => exact .gives akin
  | succ fuel ih =>
    refine akin.step?.bind fun next? next?' related => ?_
    cases related with
    | none => exact .gives akin
    | some stepped => exact ih stepped

theorem simplify : Likewise Graph.Akin g.simplify g'.simplify := by
  have states (states states' : List State)
    (same : states'.map State.nodes = states.map State.nodes) :
      Likewise (fun found found' => found'.map State.nodes = found.map State.nodes)
        (states.mapM simplifyState) (states'.mapM simplifyState) := by
    induction states generalizing states' with
    | nil =>
      obtain rfl := map_eq_nil_iff.mp same
      exact .gives rfl
    | cons s rest ih =>
      obtain ⟨s', rest', rfl, head, tail⟩ := map_eq_cons_iff.mp same
      have here : Likewise (fun t t' : State => t'.nodes = t.nodes) (simplifyState s)
        (simplifyState s') := by
        simp only [simplifyState, head]
        exact .seq (.of_eq rfl) fun nodes => .gives rfl
      simp only [mapM_cons]
      refine here.bind fun first first' alike => ?_
      exact (ih rest' tail).bind fun found found' others => .gives
        (by rw [map_cons, map_cons, others, alike])
  rw [simplify_eq, simplify_eq]
  refine (states _ _ akin.2).bind fun found found' same => ?_
  have simplified : (g.rewired found g.edges g.start).Akin
    (g'.rewired found' g'.edges g'.start) := by
    rw [akin.edges, akin.start]
    exact akin.rewired same _ _
  have collapsed := simplified.collapseWith (found.length + 1)
  have count : found'.length = found.length := simplified.length_states
  unfold collapse
  rw [count]
  exact collapsed

theorem allocate (args : Memory) (entries : List (String × Descriptor)) (memory : Memory) :
    Likewise Eq (Machine.allocate g args entries memory)
      (Machine.allocate g' args entries memory) := by
  induction entries generalizing memory with
  | nil => exact .gives rfl
  | cons entry rest ih =>
    obtain ⟨name, d⟩ := entry
    have initial : Likewise Eq (Machine.initial g args name d)
      (Machine.initial g' args name d) := by
      unfold Machine.initial
      rw [akin.constants]
      split
      · exact .gives rfl
      · refine .ite (fun _ => .of_eq rfl) fun _ => ?_
        split
        · exact .fails rfl
        · exact .of_eq rfl
    exact initial.seq fun value => ih _

theorem walk (effects : List Effect) (remaining id : Nat) (memory : Memory) (symbols : Symbols) :
    Likewise Eq (Machine.walk g effects remaining id memory symbols)
      (Machine.walk g' effects remaining id memory symbols) := by
  have out (id : Nat) : g'.outEdges id = g.outEdges id := by
    simp only [outEdges, akin.edges]
  induction remaining generalizing id memory symbols with
  | zero =>
    unfold Machine.walk
    rw [out]
    refine .seq (.of_eq rfl) fun effect => .seq (.of_eq rfl) fun memory => .seq (.of_eq rfl)
      fun taken? => ?_
    cases taken? with
    | none => exact .gives rfl
    | some taken => exact .fails rfl
  | succ remaining ih =>
    unfold Machine.walk
    rw [out]
    refine .seq (.of_eq rfl) fun effect => .seq (.of_eq rfl) fun memory => .seq (.of_eq rfl)
      fun taken? => ?_
    cases taken? with
    | none => exact .gives rfl
    | some taken => exact ih _ _ _

end Akin

end Graph

def Program.Alike (p p' : Program) : Prop :=
  ∀ args, Outcome.Likewise Eq (p.call args) (p'.call args)

open Outcome in
theorem Graph.Akin.compile {g g' : Graph} (akin : g.Akin g') : Likewise Program.Alike
    (Program.compile g) (Program.compile g') := by
  have effects (states states' : List State)
    (same : states'.map State.nodes = states.map State.nodes) :
      states'.mapM Program.compileState = states.mapM Program.compileState := by
    induction states generalizing states' with
    | nil =>
      obtain rfl := map_eq_nil_iff.mp same
      rfl
    | cons s rest ih =>
      obtain ⟨s', rest', rfl, head, tail⟩ := map_eq_cons_iff.mp same
      simp only [mapM_cons, Program.compileState, head, ih rest' tail]
  rw [Program.compile_eq, Program.compile_eq, effects _ _ akin.2]
  refine .seq (.of_eq rfl) fun effects => .gives fun args => ?_
  simp only [Program.call, Program.run, akin.arrays, akin.start]
  exact .seq (akin.allocate _ _ _) fun _ => .seq (akin.walk _ _ _ _ _) fun _ => .gives rfl

-- Drafts of such graphs that differ in what their variables are known by, besides.
structure Draft.Akin (d d' : Draft) : Prop where
  graph : d.graph.Akin d'.graph
  inputs : d'.inputs? = d.inputs?
  outputs : d'.outputs? = d.outputs?
  start : d'.start = d.start
  terminal : d'.terminal = d.terminal

theorem Draft.Akin.symm {d d' : Draft} (akin : d.Akin d') : d'.Akin d :=
  ⟨akin.graph.symm, akin.inputs.symm, akin.outputs.symm, akin.start.symm, akin.terminal.symm⟩

theorem Draft.Akin.trans {d d' d'' : Draft} (first : d.Akin d') (second : d'.Akin d'') :
    d.Akin d'' :=
  ⟨first.graph.trans second.graph, second.inputs.trans first.inputs,
    second.outputs.trans first.outputs, second.start.trans first.start,
    second.terminal.trans first.terminal⟩

open Outcome in
theorem Draft.Akin.check {d d' : Draft} (akin : d.Akin d') : Likewise Eq d.check d'.check := by
  have sinks : d'.graph.sinks = d.graph.sinks := by
    have degree : d'.graph.outDegree = d.graph.outDegree := by
      funext id
      simp only [Graph.outDegree, Graph.outEdges, akin.graph.edges]
    rw [Graph.sinks, Graph.sinks, degree, akin.graph.length_states]
  have names (role : String) (names? : Option (List String)) :
    Likewise Eq (d.checkNames role names?) (d'.checkNames role names?) := by
    simp only [checkNames, akin.graph.arrays]
    cases (names?.getD []).find? fun name => !d.graph.arrays.contains name with
    | none => exact .gives rfl
    | some missing => exact .fails rfl
  simp only [Draft.check, akin.start, akin.terminal, akin.inputs, akin.outputs, akin.graph.start,
    sinks]
  exact .ite (fun _ => .fails rfl) fun _ => .ite (fun _ => .fails rfl) fun _ => .seq
    (names "input" d.inputs?) fun _ => names "output" d.outputs?

end TraceFlow
