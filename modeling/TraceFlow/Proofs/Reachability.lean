import Mathlib.Data.List.Nodup
import Mathlib.Data.List.Perm.Subperm
import Mathlib.Logic.Relation
import Mathlib.Order.Lattice.Nat
import TraceFlow.Graph.Basic

set_option autoImplicit false

namespace TraceFlow.Graph

open List

variable {g : Graph} {id : Nat} {queue seen : List Nat}

def Leads (g : Graph) (source target : Nat) : Prop :=
  ∃ e ∈ g.edges, e.source = source ∧ e.target = target

def Reaches (g : Graph) : Nat → Nat → Prop :=
  Relation.ReflTransGen g.Leads

theorem mem_successors {source target : Nat} : target ∈ g.successors source ↔
    g.Leads source target := by
  simp [successors, outEdges, Leads, and_assoc]

def ReachesIn (g : Graph) : Nat → Nat → Prop
  | 0, id => id = g.start
  | n + 1, id => ∃ source, g.ReachesIn n source ∧ g.Leads source id

noncomputable def distance (g : Graph) (id : Nat) : Nat :=
  sInf {n | g.ReachesIn n id}

theorem reaches_iff : g.Reaches g.start id ↔ ∃ n, g.ReachesIn n id := by
  constructor
  · intro path
    induction path with
    | refl => exact ⟨0, rfl⟩
    | tail _ leads ih =>
      obtain ⟨n, path⟩ := ih
      exact ⟨n + 1, _, path, leads⟩
  · rintro ⟨n, path⟩
    induction n generalizing id with
    | zero => exact path ▸ .refl
    | succ n ih =>
      obtain ⟨source, path, leads⟩ := path
      exact (ih path).tail leads

theorem distance_le {n : Nat} (path : g.ReachesIn n id) : g.distance id ≤ n :=
  Nat.sInf_le path

theorem ReachesIn.distance {n : Nat} (path : g.ReachesIn n id) : g.ReachesIn (g.distance id) id :=
  Nat.sInf_mem (s := {n | g.ReachesIn n id}) ⟨n, path⟩

-- The search comes to an end: from a queue and the states listed so far to all states it lists.
inductive Searches (g : Graph) : List Nat → List Nat → List Nat → Prop
  | done {seen : List Nat} : g.Searches [] seen seen
  | skip {id : Nat} {queue seen listed : List Nat} (known : id ∈ seen)
    (rest : g.Searches queue seen listed) : g.Searches (id :: queue) seen listed
  | enter {id : Nat} {queue seen listed : List Nat} (fresh : id ∉ seen)
    (rest : g.Searches (queue ++ g.successors id) (seen ++ [id]) listed) :
    g.Searches (id :: queue) seen listed

def pendingEdges (g : Graph) (seen : List Nat) : List Edge :=
  g.edges.filter fun e => e.source ∉ seen

theorem length_pendingEdges_enter (fresh : id ∉ seen) : (g.successors id).length +
    (g.pendingEdges (seen ++ [id])).length = (g.pendingEdges seen).length := by
  simp only [successors, outEdges, pendingEdges, length_map]
  induction g.edges with
  | nil => rfl
  | cons e rest ih =>
    by_cases here : e.source = id
    · have pending : e.source ∉ seen := here ▸ fresh
      simp only [filter_cons, here, fresh, decide_true, if_true, length_cons,
        mem_append, mem_singleton, or_true, not_true_eq_false, decide_false,
        not_false_eq_true, Bool.false_eq_true, if_false] at ih ⊢
      omega
    · by_cases listed : e.source ∈ seen <;>
        simp only [filter_cons, here, listed, decide_true, if_true, length_cons,
          mem_append, mem_singleton, or_false, not_true_eq_false, decide_false,
          not_false_eq_true, Bool.false_eq_true, if_false] at ih ⊢ <;> omega

-- Every turn takes a state off the queue, and pays for those it puts there with edges that are no
-- longer pending.
theorem searches_visit {fuel : Nat} (enough : queue.length + (g.pendingEdges seen).length ≤ fuel) :
    g.Searches queue seen (g.visit fuel queue seen) := by
  induction fuel generalizing queue seen with
  | zero =>
    have empty : queue = [] := length_eq_zero_iff.mp (by omega)
    subst empty
    exact .done
  | succ fuel ih =>
    cases queue with
    | nil => exact .done
    | cons id queue =>
      rw [visit]
      simp only [length_cons] at enough
      by_cases known : id ∈ seen
      · rw [if_pos known]
        exact .skip known (ih (by omega))
      · rw [if_neg known]
        have moved := length_pendingEdges_enter (g := g) known
        refine .enter known (ih ?_)
        rw [length_append]
        omega

theorem searches_reachable (g : Graph) : g.Searches [g.start] [] g.reachable := by
  have bound : (g.pendingEdges []).length ≤ g.edges.length := length_filter_le _ _
  refine searches_visit ?_
  simp only [length_singleton]
  omega

-- What the search keeps true of its queue and of the states it has listed.
structure Searching (g : Graph) (queue : List (Nat × Nat)) (seen : List Nat) : Prop where
  nodup : seen.Nodup
  sorted : seen.Pairwise fun a b => g.distance a ≤ g.distance b
  reached : ∀ id ∈ seen, ∃ n, g.ReachesIn n id
  found : ∀ entry ∈ queue, g.ReachesIn entry.2 entry.1
  ascending : queue.Pairwise fun a b => a.2 ≤ b.2
  narrow : ∀ a ∈ queue, ∀ b ∈ queue, b.2 ≤ a.2 + 1
  behind : ∀ id ∈ seen, ∀ entry ∈ queue, g.distance id ≤ entry.2
  closed : ∀ id ∈ seen, ∀ next, g.Leads id next → next ∈ seen ∨ ∃ level ≤ g.distance id + 1,
    (next, level) ∈ queue
  started : g.start ∈ seen ∨ (g.start, 0) ∈ queue

namespace Searching

variable {queue : List (Nat × Nat)} {level : Nat}

-- A path leaves the listed states through the queue.
theorem frontier (inv : g.Searching queue seen) {n : Nat} (path : g.ReachesIn n id) :
    id ∈ seen ∨ ∃ entry ∈ queue, entry.2 ≤ n := by
  induction n generalizing id with
  | zero =>
    rcases inv.started with listed | queued
    · exact .inl (path ▸ listed)
    · exact .inr ⟨_, queued, le_rfl⟩
  | succ n ih =>
    obtain ⟨source, path, leads⟩ := path
    rcases ih path with listed | ⟨entry, queued, bound⟩
    · rcases inv.closed source listed id leads with found | ⟨level, bound, queued⟩
      · exact .inl found
      · exact .inr ⟨_, queued, bound.trans (Nat.succ_le_succ (distance_le path))⟩
    · exact .inr ⟨entry, queued, bound.trans n.le_succ⟩

theorem level_eq (inv : g.Searching ((id, level) :: queue) seen) (fresh : id ∉ seen) :
    g.distance id = level := by
  have path : g.ReachesIn level id := inv.found _ mem_cons_self
  refine le_antisymm (distance_le path) ?_
  rcases inv.frontier path.distance with listed | ⟨entry, queued, bound⟩
  · exact absurd listed fresh
  · rcases mem_cons.mp queued with rfl | later
    · exact bound
    · exact ((pairwise_cons.mp inv.ascending).1 entry later).trans bound

theorem skip (inv : g.Searching ((id, level) :: queue) seen) (known : id ∈ seen) :
    g.Searching queue seen where
  nodup := inv.nodup
  sorted := inv.sorted
  reached := inv.reached
  found entry queued := inv.found entry (mem_cons_of_mem _ queued)
  ascending := (pairwise_cons.mp inv.ascending).2
  narrow a first b second := inv.narrow a (mem_cons_of_mem _ first) b (mem_cons_of_mem _ second)
  behind other listed entry queued := inv.behind other listed entry (mem_cons_of_mem _ queued)
  closed source listed next leads := by
    rcases inv.closed source listed next leads with found | ⟨level, bound, queued⟩
    · exact .inl found
    · rcases mem_cons.mp queued with same | later
      · exact .inl ((Prod.mk.inj same).1 ▸ known)
      · exact .inr ⟨level, bound, later⟩
  started := by
    rcases inv.started with found | queued
    · exact .inl found
    · rcases mem_cons.mp queued with same | later
      · exact .inl ((Prod.mk.inj same).1 ▸ known)
      · exact .inr later

theorem enter (inv : g.Searching ((id, level) :: queue) seen) (fresh : id ∉ seen) :
    g.Searching (queue ++ (g.successors id).map (·, level + 1)) (seen ++ [id]) := by
  have here : g.ReachesIn level id := inv.found _ mem_cons_self
  have first := (pairwise_cons.mp inv.ascending).1
  have behind (other : Nat) (listed : other ∈ seen) : g.distance other ≤ level :=
    inv.behind other listed _ mem_cons_self
  have narrow (entry : Nat × Nat) (queued : entry ∈ queue) : entry.2 ≤ level + 1 :=
    inv.narrow _ mem_cons_self entry (mem_cons_of_mem _ queued)
  have added {entry : Nat × Nat} : entry ∈ (g.successors id).map (·, level + 1) ↔
    g.Leads id entry.1 ∧ entry.2 = level + 1 := by
    obtain ⟨next, n⟩ := entry
    simp only [mem_map, mem_successors, Prod.mk.injEq]
    grind
  constructor
  case nodup => exact nodup_append.mpr ⟨inv.nodup, nodup_singleton id, by grind⟩
  case sorted =>
    refine pairwise_append.mpr ⟨inv.sorted, pairwise_singleton _ _, ?_⟩
    intro other listed last single
    rw [mem_singleton.mp single, inv.level_eq fresh]
    exact behind other listed
  case reached =>
    intro other listed
    rcases mem_append.mp listed with old | single
    · exact inv.reached other old
    · exact ⟨level, mem_singleton.mp single ▸ here⟩
  case found =>
    intro entry queued
    rcases mem_append.mp queued with old | new
    · exact inv.found entry (mem_cons_of_mem _ old)
    · obtain ⟨leads, same⟩ := added.mp new
      rw [same]
      exact ⟨id, here, leads⟩
  case ascending =>
    refine pairwise_append.mpr ⟨(pairwise_cons.mp inv.ascending).2, ?_, ?_⟩
    · exact pairwise_map.mpr (pairwise_of_forall fun _ _ => le_rfl)
    · intro old queued new member
      rw [(added.mp member).2]
      exact narrow old queued
  case narrow =>
    intro a queued b queued'
    rcases mem_append.mp queued with old | new <;> rcases mem_append.mp queued' with old' | new'
    · exact inv.narrow a (mem_cons_of_mem _ old) b (mem_cons_of_mem _ old')
    · rw [(added.mp new').2]
      exact Nat.succ_le_succ (first a old)
    · rw [(added.mp new).2]
      exact (narrow b old').trans (level + 1).le_succ
    · rw [(added.mp new).2, (added.mp new').2]
      exact (level + 1).le_succ
  case behind =>
    intro other listed entry queued
    have bound : g.distance other ≤ level := by
      rcases mem_append.mp listed with old | single
      · exact behind other old
      · rw [mem_singleton.mp single, inv.level_eq fresh]
    rcases mem_append.mp queued with old | new
    · exact bound.trans (first entry old)
    · rw [(added.mp new).2]
      exact bound.trans level.le_succ
  case closed =>
    intro source listed next leads
    rcases mem_append.mp listed with old | single
    · rcases inv.closed source old next leads with found | ⟨n, bound, queued⟩
      · exact .inl (mem_append_left _ found)
      · rcases mem_cons.mp queued with same | later
        · exact .inl (mem_append_right _ (mem_singleton.mpr (Prod.mk.inj same).1))
        · exact .inr ⟨n, bound, mem_append_left _ later⟩
    · rw [mem_singleton] at single
      subst single
      exact .inr ⟨level + 1, by rw [inv.level_eq fresh], mem_append_right _
        (added.mpr ⟨leads, rfl⟩)⟩
  case started =>
    rcases inv.started with found | queued
    · exact .inl (mem_append_left _ found)
    · rcases mem_cons.mp queued with same | later
      · exact .inl (mem_append_right _ (mem_singleton.mpr (Prod.mk.inj same).1))
      · exact .inr (mem_append_left _ later)

theorem run {states listed : List Nat} (searches : g.Searches states seen listed)
    (tagged : queue.map Prod.fst = states) (inv : g.Searching queue seen) :
    g.Searching [] listed := by
  induction searches generalizing queue with
  | done => exact map_eq_nil_iff.mp tagged ▸ inv
  | skip known _ ih =>
    obtain ⟨⟨id, level⟩, queue, rfl, rfl, rfl⟩ := map_eq_cons_iff.mp tagged
    exact ih rfl (inv.skip known)
  | enter fresh _ ih =>
    obtain ⟨⟨id, level⟩, queue, rfl, rfl, rfl⟩ := map_eq_cons_iff.mp tagged
    refine ih ?_ (inv.enter fresh)
    simp only [map_append, map_map, Function.comp_def, map_id']

theorem initial (g : Graph) : g.Searching [(g.start, 0)] [] := by
  constructor <;> simp [ReachesIn]

end Searching

theorem searching_reachable (g : Graph) : g.Searching [] g.reachable :=
  (Searching.initial g).run g.searches_reachable rfl

theorem nodup_reachable (g : Graph) : g.reachable.Nodup :=
  g.searching_reachable.nodup

theorem mem_reachable : id ∈ g.reachable ↔ g.Reaches g.start id := by
  rw [reaches_iff]
  constructor
  · exact g.searching_reachable.reached id
  · rintro ⟨n, path⟩
    simpa using g.searching_reachable.frontier path

theorem reachable_breadthFirst (g : Graph) :
    g.Searches [g.start] [] g.reachable ∧ g.reachable.Nodup ∧
    (∀ id, id ∈ g.reachable ↔ g.Reaches g.start id) ∧
      g.reachable.Pairwise fun a b => g.distance a ≤ g.distance b :=
  ⟨g.searches_reachable, g.nodup_reachable, fun _ => mem_reachable, g.searching_reachable.sorted⟩

structure InRange (g : Graph) : Prop where
  start : g.start < g.states.length
  edges : ∀ e ∈ g.edges, e.source < g.states.length ∧ e.target < g.states.length

def Acyclic (g : Graph) : Prop :=
  ∃ rank : Nat → Nat, ∀ e ∈ g.edges, rank e.source < rank e.target

def Connected (g : Graph) : Prop :=
  ∀ id < g.states.length, g.Reaches g.start id

theorem InRange.of_reaches (inRange : g.InRange) (path : g.Reaches g.start id) :
    id < g.states.length := by
  induction path with
  | refl => exact inRange.start
  | tail _ leads _ =>
    obtain ⟨e, member, -, rfl⟩ := leads
    exact (inRange.edges e member).2

theorem length_reachable_iff (inRange : g.InRange) : g.reachable.length = g.states.length ↔
    g.Connected := by
  have inside : g.reachable ⊆ List.range g.states.length := by
    intro id listed
    exact mem_range.mpr (inRange.of_reaches (mem_reachable.mp listed))
  constructor
  · intro count id bound
    have perm := (subperm_of_subset g.nodup_reachable inside).perm_of_length_le
      (by simp [count])
    exact mem_reachable.mp (perm.mem_iff.mpr (mem_range.mpr bound))
  · intro connected
    have all : List.range g.states.length ⊆ g.reachable := by
      intro id bound
      exact mem_reachable.mpr (connected id (mem_range.mp bound))
    have upper := (subperm_of_subset g.nodup_reachable inside).length_le
    have lower := (subperm_of_subset nodup_range all).length_le
    rw [length_range] at upper lower
    omega

end TraceFlow.Graph
