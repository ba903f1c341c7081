import TraceFlow.Proofs.Contraction
import TraceFlow.Proofs.Settling

set_option autoImplicit false

namespace TraceFlow.Graph

open List

variable {states : List State} {g : Graph} {edges : List Edge} {start id : Nat} {e : Edge}

theorem leads_without {gone : Nat} (member : e ∈ edges) : (g.without gone states edges start).Leads
    (shifted gone e.source) (shifted gone e.target) :=
  ⟨e.renumbered (shifted gone), mem_map_of_mem member, rfl, rfl⟩

theorem exists_old {gone : Nat} (inside : gone < states.length) (id : Nat)
    (bound : id < (g.without gone states edges start).states.length) :
    ∃ old < states.length, old ≠ gone ∧ shifted gone old = id := by
  refine ⟨restored gone id, ?_, restored_ne gone id, shifted_restored gone id⟩
  simp only [without, length_eraseIdx_of_lt inside] at bound
  grind [restored]

-- The start is empty and only hands over along `e`.
structure HandsOver (g : Graph) (e : Edge) : Prop where
  empty : ∃ label, g.states[g.start]? = some ⟨label, []⟩
  entry : g.inEdges g.start = []
  exit : g.outEdges g.start = [e]
  plain : e.isPlain = true

namespace HandsOver

variable {g : Graph} {e : Edge}

variable (step : g.HandsOver e)

include step

theorem mem : e ∈ g.edges ∧ e.source = g.start := by
  have member : e ∈ g.outEdges g.start := by simp [step.exit]
  simpa [outEdges] using member

theorem target_ne : ∀ other ∈ g.edges, other.target ≠ g.start := by
  intro other member same
  have entering : other ∈ g.inEdges g.start := by simp [inEdges, member, same]
  simp [step.entry] at entering

theorem edgesAway_eq : g.edgesAway g.start = g.edges.filter fun other => !decide
    (other.source = g.start) := by
  apply filter_congr
  intro other member
  simp [step.target_ne other member]

theorem perm : g.edges.Perm (e :: g.edgesAway g.start) := by
  rw [step.edgesAway_eq]
  exact perm_of_filter step.exit

theorem edgesAway_filter (ne : id ≠ g.start) :
    ((g.edgesAway g.start).filter fun other => other.source = id) = g.outEdges id := by
  rw [step.edgesAway_eq, filter_filter, outEdges]
  apply filter_congr
  grind

theorem detours (id : Nat)
    (detour : (g.without g.start g.states (g.edgesAway g.start) e.target).Detour id) :
    g.Detour (restored g.start id) := by
  have avoids := avoids_edgesAway g g.start
  have apart : e.target ≠ restored g.start id := by
    intro same
    exact detour.notStart (by simp [without, same])
  have entered := detour.entered
  have left := detour.left
  rw [inDegree_without avoids] at entered
  rw [outDegree_without avoids] at left
  constructor
  · exact restored_ne g.start id
  · simpa only [state_without] using detour.empty
  · rw [inDegree, inEdges, ← countP_eq_length_filter, step.perm.countP_eq]
    simp [apart, entered]
  · rw [outDegree, outEdges, ← countP_eq_length_filter, step.perm.countP_eq]
    simp [step.mem.2, (restored_ne g.start id).symm, left]

theorem rewires (inRange : g.InRange) :
    g.Rewires (g.without g.start g.states (g.edgesAway g.start) e.target) := by
  have avoids := avoids_edgesAway g g.start
  have sub : (g.edgesAway g.start).Sublist g.edges := filter_sublist
  obtain ⟨member, source⟩ := step.mem
  have ends := inRange.edges e member
  obtain ⟨label, empty⟩ := step.empty
  constructor
  · rfl
  · exact length_eraseIdx_le _ _
  · exact perm_nodes_without empty
  · exact inRange_without avoids inRange.start (fun other kept => inRange.edges other
      (sub.subset kept))
      (step.target_ne e member) ends.2
  · intro connected
    apply connected.image fun id => shifted g.start (if id = g.start then e.target else id)
    · simp [without]
    · intro other known
      rcases mem_cons.mp (step.perm.subset known) with rfl | kept
      · simp [source, step.target_ne other known]
      · right
        simpa [(avoids other kept).1, (avoids other kept).2] using leads_without kept
    · intro id bound
      obtain ⟨old, inside, ne, rfl⟩ := exists_old inRange.start id bound
      exact ⟨old, inside, by simp [ne]⟩
  · rintro ⟨rank, increasing⟩
    exact acyclic_without avoids rank fun other kept => increasing other (sub.subset kept)
  · exact fun orderly => orderly_without avoids step.detours (List.Pairwise.sublist sub orderly)
  · intro other found
    obtain ⟨old, kept, rfl⟩ := mem_map.mp found
    exact ⟨old, sub.subset kept, rfl, rfl⟩
  · intro old known
    rcases mem_cons.mp (step.perm.subset known) with rfl | kept
    · exact .inl step.plain
    · exact .inr ⟨_, mem_map_of_mem kept, rfl, rfl⟩

end HandsOver

-- An empty state with one edge in and one edge out, of which at most one guards or assigns.
structure PassesThrough (g : Graph) (gone : Nat) (before after : Edge) : Prop where
  notStart : gone ≠ g.start
  empty : ∃ label, g.states[gone]? = some ⟨label, []⟩
  entry : g.inEdges gone = [before]
  exit : g.outEdges gone = [after]
  plain : before.isPlain = true ∨ after.isPlain = true
  source : before.source ≠ gone
  target : after.target ≠ gone

def bypassing (before after : Edge) : Edge :=
  { (if before.isPlain then after else before) with source := before.source, target :=
    after.target }

@[simp] theorem bypassing_source (before after : Edge) :
    (bypassing before after).source = before.source := rfl
@[simp] theorem bypassing_target (before after : Edge) :
    (bypassing before after).target = after.target := rfl

namespace PassesThrough

variable {g : Graph} {gone : Nat} {before after : Edge}

variable (step : g.PassesThrough gone before after)

include step

theorem mem_before : before ∈ g.edges ∧ before.target = gone := by
  have member : before ∈ g.inEdges gone := by simp [step.entry]
  simpa [inEdges] using member

theorem mem_after : after ∈ g.edges ∧ after.source = gone := by
  have member : after ∈ g.outEdges gone := by simp [step.exit]
  simpa [outEdges] using member

theorem perm : g.edges.Perm (before :: after :: g.edgesAway gone) := by
  have entering := perm_of_filter step.entry
  have leaving : (g.edges.filter fun e => !decide (e.target = gone)).filter
    (fun e => e.source = gone) = [after] := by
    rw [filter_comm]
    have exit := step.exit
    rw [outEdges] at exit
    rw [exit]
    simp [step.target]
  have away : ((g.edges.filter fun e => !decide (e.target = gone)).filter fun e => !decide
    (e.source = gone)) =
      g.edgesAway gone := by
    rw [filter_filter, edgesAway]
    apply filter_congr
    grind
  have rest := perm_of_filter leaving
  rw [away] at rest
  exact entering.trans (rest.cons before)

theorem detour : g.Detour gone where
  notStart := step.notStart
  empty := step.empty
  entered := by simp [inDegree, step.entry]
  left := by simp [outDegree, step.exit]

theorem avoids : Avoids (g.edgesAway gone ++ [bypassing before after]) gone := by
  intro e member
  rcases mem_append.mp member with away | single
  · exact avoids_edgesAway g gone e away
  · rw [mem_singleton] at single
    subst single
    exact ⟨step.source, step.target⟩

theorem detours (id : Nat)
    (detour : (g.without gone g.states (g.edgesAway gone ++ [bypassing before after])
      g.start).Detour id) : g.Detour (restored gone id) := by
  have entered := detour.entered
  have left := detour.left
  have ne := (restored_ne gone id).symm
  rw [inDegree_without step.avoids, countP_append, countP_cons] at entered
  rw [outDegree_without step.avoids, countP_append, countP_cons] at left
  constructor
  · intro same
    exact detour.notStart (by simp [without, ← same])
  · simpa only [state_without] using detour.empty
  · rw [inDegree, inEdges, ← countP_eq_length_filter, step.perm.countP_eq, countP_cons, countP_cons]
    by_cases there : after.target = restored gone id <;>
      simpa [step.mem_before.2, ne, there] using entered
  · rw [outDegree, outEdges, ← countP_eq_length_filter, step.perm.countP_eq, countP_cons,
      countP_cons]
    by_cases there : before.source = restored gone id <;>
      simpa [step.mem_after.2, ne, there] using left

theorem excludes (orderly : g.Orderly) (known : e ∈ g.edges) (elsewhere : e.target ≠ gone)
    (source : e.source = before.source) (detour : g.Detour e.target) : e.Excludes before := by
  obtain ⟨member, target⟩ := step.mem_before
  obtain ⟨earlier, later, split⟩ := append_of_mem member
  rw [Orderly, split, pairwise_append, pairwise_cons] at orderly
  rw [split, mem_append, mem_cons] at known
  rcases known with early | rfl | late
  · exact orderly.2.2 e early before mem_cons_self source detour
  · exact absurd target elsewhere
  · exact (orderly.2.1.1 e late source.symm (target ▸ step.detour)).symm

theorem rewires (inRange : g.InRange) :
    g.Rewires (g.without gone g.states (g.edgesAway gone ++ [bypassing before after]) g.start) := by
  have avoids := step.avoids
  have sub : (g.edgesAway gone).Sublist g.edges := filter_sublist
  obtain ⟨entering, target⟩ := step.mem_before
  obtain ⟨leaving, source⟩ := step.mem_after
  have inside : gone < g.states.length := target ▸ (inRange.edges before entering).2
  obtain ⟨label, empty⟩ := step.empty
  constructor
  · rfl
  · exact length_eraseIdx_le _ _
  · exact perm_nodes_without empty
  · refine inRange_without avoids inside ?_ step.notStart.symm inRange.start
    intro e member
    rcases mem_append.mp member with away | single
    · exact inRange.edges e (sub.subset away)
    · rw [mem_singleton.mp single]
      exact ⟨(inRange.edges before entering).1, (inRange.edges after leaving).2⟩
  · intro connected
    apply connected.image fun id => shifted gone (if id = gone then before.source else id)
    · simp [without, step.notStart.symm]
    · intro e known
      have cases := step.perm.subset known
      simp only [mem_cons] at cases
      rcases cases with rfl | rfl | away
      · simp [target]
      · right
        have bypass : bypassing before e ∈ g.edgesAway gone ++ [bypassing before e] := by simp
        simpa [source, step.target] using leads_without bypass
      · right
        have ends := avoids_edgesAway g gone e away
        simpa [ends.1, ends.2] using leads_without (mem_append_left [bypassing before after] away)
    · intro id bound
      obtain ⟨old, below, ne, rfl⟩ := exists_old inside id bound
      exact ⟨old, below, by simp [ne]⟩
  · rintro ⟨rank, increasing⟩
    refine acyclic_without avoids rank ?_
    intro e member
    rcases mem_append.mp member with away | single
    · exact increasing e (sub.subset away)
    · rw [mem_singleton.mp single, bypassing_source, bypassing_target]
      have first := increasing before entering
      have second := increasing after leaving
      rw [target] at first
      rw [source] at second
      exact first.trans second
  · refine fun orderly => orderly_without avoids step.detours ?_
    rw [pairwise_append]
    refine ⟨List.Pairwise.sublist sub orderly, pairwise_singleton _ _, ?_⟩
    intro e away other single same detour
    rw [mem_singleton.mp single] at same ⊢
    have excludes := step.excludes orderly (sub.subset away) (avoids_edgesAway g gone e away).2 same
      detour
    exact excludes.congr rfl (by simp [bypassing, excludes.symm.not_plain])
  · intro e found
    obtain ⟨old, member, rfl⟩ := mem_map.mp found
    rcases mem_append.mp member with away | single
    · exact ⟨old, sub.subset away, rfl, rfl⟩
    · rw [mem_singleton.mp single]
      cases plain : before.isPlain with
      | true => exact ⟨after, leaving, by simp [bypassing, plain], by simp [bypassing, plain]⟩
      | false => exact ⟨before, entering, by simp [bypassing, plain], by simp [bypassing, plain]⟩
  · intro old known
    have cases := step.perm.subset known
    simp only [mem_cons] at cases
    have bypass : bypassing before after ∈ g.edgesAway gone ++ [bypassing before after] := by simp
    rcases cases with rfl | rfl | away
    · cases plain : old.isPlain with
      | true => exact .inl rfl
      | false =>
        exact .inr ⟨_, mem_map_of_mem
          bypass, by simp [bypassing, plain], by simp [bypassing, plain]⟩
    · cases plain : before.isPlain with
      | true =>
        exact .inr ⟨_, mem_map_of_mem
          bypass, by simp [bypassing, plain], by simp [bypassing, plain]⟩
      | false => exact .inl (step.plain.resolve_left (by simp [plain]))
    · exact .inr ⟨_, mem_map_of_mem (mem_append_left _ away), rfl, rfl⟩

end PassesThrough

-- The target of `e` only follows its source, and nothing else comes between.
structure Chains (g : Graph) (e : Edge) (earlier later : List Edge) : Prop where
  split : g.edges = earlier ++ e :: later
  plain : e.isPlain = true
  apart : e.source ≠ e.target
  notStart : e.target ≠ g.start
  exit : g.outDegree e.source = 1
  entry : g.inDegree e.target = 1

def handed (e other : Edge) : Edge :=
  if other.source = e.target then { other with source := e.source } else other

@[simp] theorem handed_source (e other : Edge) :
    (handed e other).source = if other.source = e.target then e.source else other.source := by
  grind [handed]

@[simp] theorem handed_target (e other : Edge) : (handed e other).target = other.target := by
  grind [handed]

@[simp] theorem handed_guard (e other : Edge) : (handed e other).guard? = other.guard? := by
  grind [handed]

@[simp] theorem handed_assignments (e other : Edge) :
    (handed e other).assignments = other.assignments := by
  grind [handed]

def joined (g : Graph) (e : Edge) (tail : State) : List State :=
  g.states.modify e.source fun s => { s with nodes := s.nodes ++ tail.nodes }

theorem state_joined (tail : State) (edges : List Edge) (start : Nat) (ne : id ≠ e.target) :
    (g.without e.target (g.joined e tail) edges start).states[shifted e.target id]? =
      g.states[id]?.map fun s => if e.source = id then
      { s with nodes := s.nodes ++ tail.nodes } else s := by
  rw [state_without, restored_shifted ne, joined, getElem?_modify]
  cases g.states[id]? with
  | none => rfl
  | some s => simp only [Option.map_some]; split <;> rfl

namespace Chains

variable {g : Graph} {e : Edge} {earlier later : List Edge}

variable {tail head : State}

variable (step : g.Chains e earlier later)

include step

theorem perm : g.edges.Perm (e :: (earlier ++ later)) := by
  rw [step.split]
  exact perm_middle

theorem source_ne : ∀ other ∈ earlier ++ later, other.source ≠ e.source := by
  have count := step.exit
  rw [outDegree, outEdges, ← countP_eq_length_filter, step.perm.countP_eq, countP_cons] at count
  simp only [decide_true, if_true, Nat.add_eq_right, countP_eq_zero, decide_eq_true_eq] at count
  exact count

theorem target_ne : ∀ other ∈ earlier ++ later, other.target ≠ e.target := by
  have count := step.entry
  rw [inDegree, inEdges, ← countP_eq_length_filter, step.perm.countP_eq, countP_cons] at count
  simp only [decide_true, if_true, Nat.add_eq_right, countP_eq_zero, decide_eq_true_eq] at count
  exact count

theorem avoids : Avoids ((earlier ++ later).map (handed e)) e.target := by
  intro other member
  obtain ⟨old, known, rfl⟩ := mem_map.mp member
  refine ⟨?_, by simpa using step.target_ne old known⟩
  rw [handed_source]
  split
  · exact step.apart
  · assumption

theorem filter_other (notSource : id ≠ e.source) (notTarget : id ≠ e.target) :
    (((earlier ++ later).map (handed e)).filter fun other => other.source = id) =
    g.outEdges id := by
  have same : ∀ other ∈ (earlier ++ later).filter (fun other => other.source = id),
    handed e other = other := by
    intro other member
    have source : other.source = id := by simpa using (mem_filter.mp member).2
    simp [handed, source, notTarget]
  rw [outEdges, step.split, filter_map]
  have source : ((fun other : Edge => decide (other.source = id)) ∘ handed e) = fun other =>
    decide (other.source = id) := by
    funext other
    simp only [Function.comp_apply, handed_source, decide_eq_decide]
    split <;> grind
  rw [source, map_congr_left same, map_id']
  simp [notSource.symm]

theorem filter_source :
    (((earlier ++ later).map (handed e)).filter fun other => other.source = e.source) =
      (g.outEdges e.target).map (handed e) := by
  rw [filter_map, outEdges, step.split]
  congr 1
  have skip : (earlier ++ e :: later).filter (fun other => other.source = e.target) =
      (earlier ++ later).filter fun other => other.source = e.target := by
    simp [step.apart]
  rw [skip]
  apply filter_congr
  intro other member
  have ne := step.source_ne other member
  simp only [Function.comp_apply, handed_source, decide_eq_decide]
  grind

theorem detours (id : Nat)
    (detour : (g.without e.target (g.joined e tail) ((earlier ++ later).map (handed e))
      g.start).Detour id) : g.Detour (restored e.target id) := by
  have entered := detour.entered
  have left := detour.left
  obtain ⟨label, empty⟩ := detour.empty
  have ne := restored_ne e.target id
  rw [inDegree_without step.avoids, countP_map] at entered
  rw [outDegree_without step.avoids, countP_eq_length_filter] at left
  rw [state_without, joined, getElem?_modify] at empty
  constructor
  · intro same
    exact detour.notStart (by simp [without, ← same])
  · obtain ⟨⟨label', nodes⟩, known, state⟩ := Option.map_eq_some_iff.mp empty
    split at state
    · simp only [State.mk.injEq, append_eq_nil_iff] at state
      exact ⟨label', by rw [known, state.2.1]⟩
    · exact ⟨label, state ▸ known⟩
  · rw [inDegree, inEdges, ← countP_eq_length_filter, step.perm.countP_eq, countP_cons]
    have same : ((fun other : Edge => decide (other.target = restored e.target id)) ∘ handed e) =
        fun other => decide (other.target = restored e.target id) := by
      funext other
      simp
    rw [same] at entered
    simpa [ne.symm] using entered
  · by_cases source : restored e.target id = e.source
    · rw [source]
      exact step.exit
    · rwa [step.filter_other source ne] at left

theorem perm_nodes_joined (source : g.states[e.source]? = some head)
    (target : g.states[e.target]? = some tail) :
    (g.without e.target (g.joined e tail) ((earlier ++ later).map (handed e)) g.start).nodes.Perm
      g.nodes := by
  let front := (g.states.eraseIdx e.source).flatMap State.nodes
  have first : (head.nodes ++ front).Perm g.nodes := perm_nodes_eraseIdx source
  have second : (head.nodes ++ tail.nodes ++ front).Perm
    ((g.joined e tail).flatMap State.nodes) := by
    have found : (g.joined e tail)[e.source]? = some { head with nodes :=
      head.nodes ++ tail.nodes } := by
      rw [joined, getElem?_modify, source]
      simp
    have erased := perm_nodes_eraseIdx found
    rwa [joined, eraseIdx_modify_of_eq] at erased
  have third :
    (tail.nodes ++ (g.without e.target (g.joined e tail) ((earlier ++ later).map (handed e))
      g.start).nodes).Perm
      ((g.joined e tail).flatMap State.nodes) := by
    refine perm_nodes_eraseIdx ?_
    rw [joined, getElem?_modify, target]
    simp [step.apart]
  refine (perm_append_left_iff tail.nodes).mp
    (third.trans (second.symm.trans ((perm_append_comm.append_right front).trans ?_)))
  rw [append_assoc]
  exact first.append_left _

theorem rewires (inRange : g.InRange) (source : g.states[e.source]? = some head)
    (target : g.states[e.target]? = some tail) :
    g.Rewires (g.without e.target (g.joined e tail) ((earlier ++ later).map (handed e))
      g.start) := by
  have avoids := step.avoids
  have known : e ∈ g.edges := by simp [step.split]
  have rest : ∀ other ∈ earlier ++ later, other ∈ g.edges :=
    fun other member => step.perm.symm.subset (mem_cons_of_mem e member)
  have ends := inRange.edges e known
  have count : (g.joined e tail).length = g.states.length := length_modify _ _ _
  constructor
  · rfl
  · exact (length_eraseIdx_le _ _).trans (Nat.le_of_eq count)
  · exact step.perm_nodes_joined source target
  · refine inRange_without avoids (count ▸ ends.2) ?_ step.notStart.symm (count ▸ inRange.start)
    intro other member
    obtain ⟨old, kept, rfl⟩ := mem_map.mp member
    have bounds := inRange.edges old (rest old kept)
    rw [count, handed_source, handed_target]
    refine ⟨?_, bounds.2⟩
    split
    · exact ends.1
    · exact bounds.1
  · intro connected
    apply connected.image fun id => shifted e.target (if id = e.target then e.source else id)
    · simp [without, step.notStart.symm]
    · intro other member
      rcases mem_cons.mp (step.perm.subset member) with rfl | kept
      · simp [step.apart]
      · right
        simpa [step.target_ne other kept] using leads_without (mem_map_of_mem (f := handed e) kept)
    · intro id bound
      obtain ⟨old, below, ne, rfl⟩ := exists_old (count ▸ ends.2) id bound
      exact ⟨old, count ▸ below, by simp [ne]⟩
  · rintro ⟨rank, increasing⟩
    refine acyclic_without avoids rank ?_
    intro other member
    obtain ⟨old, kept, rfl⟩ := mem_map.mp member
    have above := increasing old (rest old kept)
    rw [handed_source, handed_target]
    split
    next same => exact (increasing e known).trans (same ▸ above)
    next => exact above
  · refine fun orderly => orderly_without avoids step.detours ?_
    rw [pairwise_map]
    have sub : (earlier ++ later).Sublist g.edges := by
      rw [step.split]
      exact List.Sublist.append_left (sublist_cons_self e later) earlier
    apply (List.Pairwise.sublist sub orderly).imp_of_mem
    intro first second here there excludes same detour
    rw [handed_target] at detour
    refine (excludes ?_ detour).congr (handed_guard e first) (handed_guard e second)
    have differ := step.source_ne first here
    have differ' := step.source_ne second there
    grind [handed_source]
  · intro other found
    obtain ⟨moved, member, rfl⟩ := mem_map.mp found
    obtain ⟨old, kept, rfl⟩ := mem_map.mp member
    exact ⟨old, rest old kept, by simp, by simp⟩
  · intro old member
    rcases mem_cons.mp (step.perm.subset member) with rfl | kept
    · exact .inl step.plain
    · exact .inr ⟨_, mem_map_of_mem (mem_map_of_mem kept), by simp, by simp⟩

end Chains

end TraceFlow.Graph
