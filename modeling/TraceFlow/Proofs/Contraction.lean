import Mathlib.Data.List.Perm.Basic
import TraceFlow.Proofs.Nodes
import TraceFlow.Proofs.Reachability

set_option autoImplicit false

namespace TraceFlow

open List

namespace Edge

variable {e other : Edge}

def renumbered (f : Nat → Nat) (e : Edge) : Edge :=
  { e with source := f e.source, target := f e.target }

@[simp] theorem renumbered_source (f : Nat → Nat) (e : Edge) :
    (e.renumbered f).source = f e.source := rfl
@[simp] theorem renumbered_target (f : Nat → Nat) (e : Edge) :
    (e.renumbered f).target = f e.target := rfl
@[simp] theorem renumbered_guard (f : Nat → Nat) (e : Edge) : (e.renumbered f).guard? = e.guard? :=
    rfl
@[simp] theorem renumbered_assignments (f : Nat → Nat) (e : Edge) :
    (e.renumbered f).assignments = e.assignments := rfl

-- Both edges ask the same operand for different values, so that at most one of them can be taken.
def Excludes (e other : Edge) : Prop :=
  ∃ lhs rhs rhs', e.guard? = some ⟨lhs, rhs⟩ ∧ other.guard? = some ⟨lhs, rhs'⟩ ∧ rhs ≠ rhs'

theorem Excludes.symm (excludes : e.Excludes other) : other.Excludes e := by
  obtain ⟨lhs, rhs, rhs', here, there, differ⟩ := excludes
  exact ⟨lhs, rhs', rhs, there, here, differ.symm⟩

theorem Excludes.not_plain (excludes : e.Excludes other) : e.isPlain = false := by
  obtain ⟨lhs, rhs, rhs', here, -, -⟩ := excludes
  simp [isPlain, here]

theorem Excludes.congr {e' other' : Edge} (excludes : e.Excludes other)
    (left : e'.guard? = e.guard?) (right : other'.guard? = other.guard?) : e'.Excludes other' := by
  obtain ⟨lhs, rhs, rhs', here, there, differ⟩ := excludes
  exact ⟨lhs, rhs, rhs', left.trans here, right.trans there, differ⟩

end Edge

namespace Graph

variable {id other : Nat} {g : Graph} {states : List State} {edges : List Edge} {start : Nat}

def restored (id other : Nat) : Nat :=
  if other < id then other else other + 1

@[simp] theorem shifted_restored (id other : Nat) : shifted id (restored id other) = other := by
  grind [shifted, restored]

theorem restored_shifted (ne : other ≠ id) : restored id (shifted id other) = other := by
  grind [shifted, restored]

theorem restored_ne (id other : Nat) : restored id other ≠ id := by
  grind [restored]

theorem shifted_eq_iff {place : Nat} (ne : other ≠ id) : shifted id other = place ↔
    other = restored id place := by
  grind [shifted, restored]

theorem shifted_lt {count : Nat} (ne : other ≠ id) (inside : other < count) (gone : id < count) :
    shifted id other < count - 1 := by
  grind [shifted]

-- A graph without the state `gone`, and with the given edges, none of which has an end there.
def without (g : Graph) (gone : Nat) (states : List State) (edges : List Edge) (start : Nat) :
    Graph :=
  { g with
    states := states.eraseIdx gone
    edges := edges.map (Edge.renumbered (shifted gone))
    start := shifted gone start }

def Avoids (edges : List Edge) (gone : Nat) : Prop :=
  ∀ e ∈ edges, e.source ≠ gone ∧ e.target ≠ gone

section Without

variable {g : Graph} {gone : Nat} {states : List State} {edges : List Edge} {start : Nat}

theorem filter_source_renumbered (avoids : Avoids edges gone) (id : Nat) :
    (edges.map (Edge.renumbered (shifted gone))).filter (fun e => e.source = id) =
      (edges.filter fun e => e.source = restored gone id).map (Edge.renumbered (shifted gone)) := by
  rw [filter_map]
  congr 1
  apply filter_congr
  intro e member
  simp [shifted_eq_iff (avoids e member).1]

theorem outEdges_without (avoids : Avoids edges gone) (id : Nat) :
    (g.without gone states edges start).outEdges id =
      (edges.filter fun e => e.source = restored gone id).map (Edge.renumbered (shifted gone)) :=
  filter_source_renumbered avoids id

theorem outDegree_without (avoids : Avoids edges gone) (id : Nat) :
    (g.without gone states edges start).outDegree id = edges.countP fun e => e.source =
    restored gone id := by
  rw [outDegree, outEdges_without avoids, length_map, countP_eq_length_filter]

theorem inDegree_without (avoids : Avoids edges gone) (id : Nat) :
    (g.without gone states edges start).inDegree id = edges.countP fun e => e.target =
    restored gone id := by
  rw [inDegree, inEdges, without, filter_map, length_map, countP_eq_length_filter]
  congr 1
  apply filter_congr
  intro e member
  simp [shifted_eq_iff (avoids e member).2]

theorem state_without (id : Nat) :
    (g.without gone states edges start).states[id]? = states[restored gone id]? := by
  simp only [without, getElem?_eraseIdx, restored]
  split <;> rfl

theorem inRange_without (avoids : Avoids edges gone) (inside : gone < states.length)
    (inStates : ∀ e ∈ edges, e.source < states.length ∧ e.target < states.length)
    (started : start ≠ gone) (known : start < states.length) :
    (g.without gone states edges start).InRange := by
  have count : (states.eraseIdx gone).length = states.length - 1 := length_eraseIdx_of_lt inside
  constructor
  · simpa only [without, count] using shifted_lt started known inside
  · intro e member
    obtain ⟨e, kept, rfl⟩ := mem_map.mp member
    have ends := avoids e kept
    have bounds := inStates e kept
    simp only [without, count, Edge.renumbered_source, Edge.renumbered_target]
    exact ⟨shifted_lt ends.1 bounds.1 inside, shifted_lt ends.2 bounds.2 inside⟩

theorem acyclic_without (avoids : Avoids edges gone) (rank : Nat → Nat)
    (increasing : ∀ e ∈ edges, rank e.source < rank e.target) :
    (g.without gone states edges start).Acyclic := by
  refine ⟨fun id => rank (restored gone id), ?_⟩
  intro e member
  obtain ⟨e, kept, rfl⟩ := mem_map.mp member
  have ends := avoids e kept
  simpa [restored_shifted ends.1, restored_shifted ends.2] using increasing e kept

end Without

theorem Connected.image {g' : Graph} (connected : g.Connected) (f : Nat → Nat)
    (started : f g.start = g'.start)
    (mapped : ∀ e ∈ g.edges, f e.source = f e.target ∨ g'.Leads (f e.source) (f e.target))
    (onto : ∀ id < g'.states.length, ∃ old < g.states.length, f old = id) : g'.Connected := by
  have follow (id : Nat) (path : g.Reaches g.start id) : g'.Reaches g'.start (f id) := by
    induction path with
    | refl => exact started ▸ Relation.ReflTransGen.refl
    | tail _ leads ih =>
      obtain ⟨e, member, rfl, rfl⟩ := leads
      rcases mapped e member with same | leads
      · exact same ▸ ih
      · exact ih.tail leads
  intro id inside
  obtain ⟨old, bound, rfl⟩ := onto id inside
  exact follow old (connected old bound)

-- An empty state with one way in and one way out: a run only passes through it.
structure Detour (g : Graph) (id : Nat) : Prop where
  notStart : id ≠ g.start
  empty : ∃ label, g.states[id]? = some ⟨label, []⟩
  entered : g.inDegree id = 1
  left : g.outDegree id = 1

-- An edge to a detour excludes every later edge from the same state.
def Orderly (g : Graph) : Prop :=
  g.edges.Pairwise fun e later => e.source = later.source → g.Detour e.target → e.Excludes later

theorem orderly_without {gone : Nat} (avoids : Avoids edges gone)
    (detours : ∀ id, (g.without gone states edges start).Detour id → g.Detour (restored gone id))
    (ordered : edges.Pairwise fun e later =>
      e.source = later.source → g.Detour e.target → e.Excludes later) :
    (g.without gone states edges start).Orderly := by
  rw [Orderly, without, pairwise_map]
  apply ordered.imp_of_mem
  intro e later here there excludes same detour
  have source : e.source = later.source := by
    have equal : shifted gone e.source = shifted gone later.source := same
    rw [shifted_eq_iff (avoids e here).1, restored_shifted (avoids later there).1] at equal
    exact equal
  have target := detours _ detour
  rw [Edge.renumbered_target, restored_shifted (avoids e here).2] at target
  exact (excludes source target).congr rfl rfl

structure Rewires (g g' : Graph) : Prop where
  declared : g' = { g with states := g'.states, edges := g'.edges, start := g'.start }
  fewer : g'.states.length ≤ g.states.length
  nodes : g'.nodes.Perm g.nodes
  inRange : g'.InRange
  connected : g.Connected → g'.Connected
  acyclic : g.Acyclic → g'.Acyclic
  orderly : g.Orderly → g'.Orderly
  found : ∀ e ∈ g'.edges, ∃ old ∈ g.edges, e.guard? = old.guard? ∧ e.assignments = old.assignments
  kept : ∀ old ∈ g.edges, old.isPlain = true ∨
    ∃ e ∈ g'.edges, e.guard? = old.guard? ∧ e.assignments = old.assignments

theorem Rewires.refl (inRange : g.InRange) : g.Rewires g where
  declared := by cases g; rfl
  fewer := Nat.le_refl _
  nodes := .refl _
  inRange := inRange
  connected := id
  acyclic := id
  orderly := id
  found e member := ⟨e, member, rfl, rfl⟩
  kept e member := .inr ⟨e, member, rfl, rfl⟩

theorem Rewires.trans {g' g'' : Graph} (first : g.Rewires g') (second : g'.Rewires g'') :
    g.Rewires g'' where
  declared := by rw [second.declared, first.declared]
  fewer := Nat.le_trans second.fewer first.fewer
  nodes := second.nodes.trans first.nodes
  inRange := second.inRange
  connected connected := second.connected (first.connected connected)
  acyclic acyclic := second.acyclic (first.acyclic acyclic)
  orderly orderly := second.orderly (first.orderly orderly)
  found e member := by
    obtain ⟨e', member', guards, assignments⟩ := second.found e member
    obtain ⟨old, known, guards', assignments'⟩ := first.found e' member'
    exact ⟨old, known, guards.trans guards', assignments.trans assignments'⟩
  kept old member := by
    rcases first.kept old member with plain | ⟨e', member', guards', assignments'⟩
    · exact .inl plain
    · rcases second.kept e' member' with plain | ⟨e, known, guards, assignments⟩
      · left
        rwa [Edge.isPlain, guards', assignments', ← Edge.isPlain] at plain
      · exact .inr ⟨e, known, guards.trans guards', assignments.trans assignments'⟩

theorem perm_nodes_eraseIdx {s : State} (found : states[id]? = some s) :
    (s.nodes ++ (states.eraseIdx id).flatMap State.nodes).Perm (states.flatMap State.nodes) := by
  obtain ⟨inside, rfl⟩ := List.getElem?_eq_some_iff.mp found
  exact (getElem_cons_eraseIdx_perm inside).flatMap_right State.nodes

theorem perm_nodes_without {gone : Nat} {label : String}
    (empty : g.states[gone]? = some ⟨label, []⟩) :
    (g.without gone g.states edges start).nodes.Perm g.nodes :=
  perm_nodes_eraseIdx empty

def edgesAway (g : Graph) (gone : Nat) : List Edge :=
  g.edges.filter fun e => e.source ≠ gone ∧ e.target ≠ gone

theorem avoids_edgesAway (g : Graph) (gone : Nat) : Avoids (g.edgesAway gone) gone := by
  intro e member
  simpa using (mem_filter.mp member).2

theorem dropState_eq (g : Graph) (gone : Nat) :
    g.dropState gone = g.without gone g.states (g.edgesAway gone) g.start := rfl

theorem perm_of_filter {p : Edge → Bool} {e : Edge} (only : edges.filter p = [e]) :
    edges.Perm (e :: edges.filter fun other => !p other) := by
  have split := filter_append_perm p edges
  rw [only] at split
  exact split.symm

end Graph

end TraceFlow
