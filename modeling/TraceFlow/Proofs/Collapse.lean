import TraceFlow.Proofs.ContractionRuns

set_option autoImplicit false

namespace TraceFlow.Graph

open Machine Program List

variable {g g' : Graph} {id : Nat} {e : Edge}

theorem state_eq_ok {s : State} : g.state id = .ok s ↔ g.states[id]? = some s := by
  rw [Graph.state]
  cases g.states[id]? with
  | none => simp
  | some found => simp

theorem dropEmptyStart?_eq_some (stepped : g.dropEmptyStart? = .ok (some g')) :
    ∃ e, g.HandsOver e ∧ g' = g.without g.start g.states (g.edgesAway g.start) e.target := by
  rw [dropEmptyStart?, bind_eq_ok] at stepped
  obtain ⟨⟨label, nodes⟩, found, stepped⟩ := stepped
  rw [state_eq_ok] at found
  split at stepped
  · cases stepped
  next idle =>
    split at stepped
    next e exit =>
      split at stepped
      next passes =>
        have unused : nodes = [] ∧ g.inEdges g.start = [] := by
          simpa [State.isEmpty, inDegree] using idle
        simp only [Bool.and_eq_true] at passes
        cases stepped
        exact ⟨e, ⟨⟨label, by rw [found, unused.1]⟩, unused.2, exit, passes.1⟩, rfl⟩
      · cases stepped
    · cases stepped

theorem bypass?_eq_some {s : State} (state : g.states[id]? = some s)
    (found : g.bypass? id s = some e) :
    ∃ before after, g.PassesThrough id before after ∧ e = bypassing before after := by
  rw [bypass?] at found
  split at found
  · cases found
  next idle =>
    obtain ⟨label, nodes⟩ := s
    simp only [State.isEmpty, Bool.or_eq_true, decide_eq_true_eq, Bool.not_eq_true',
      isEmpty_eq_false_iff,
      not_or, not_not] at idle
    split at found
    next before after entry exit =>
      split at found
      next passes =>
        simp only [Bool.and_eq_true, Bool.or_eq_true, decide_eq_true_eq] at passes
        obtain ⟨⟨⟨plain, source⟩, target⟩, -⟩ := passes
        refine ⟨before, after, ⟨idle.1, ⟨label, by rw [state, idle.2]⟩, entry, exit, plain, source,
          target⟩, ?_⟩
        exact (Option.some.inj found).symm
      · cases found
    · cases found

theorem bypassFrom?_eq_some {states : List State} (place : g.states.drop id = states)
    (stepped : g.bypassFrom? id states = some g') :
    ∃ gone before after, g.PassesThrough gone before after ∧
      g' = g.without gone g.states (g.edgesAway gone ++ [bypassing before after]) g.start := by
  induction states generalizing id with
  | nil => cases stepped
  | cons s rest ih =>
    have state : g.states[id]? = some s := by
      rw [← head?_drop, place]
      rfl
    rw [bypassFrom?] at stepped
    split at stepped
    next e found =>
      obtain ⟨before, after, passes, rfl⟩ := bypass?_eq_some state found
      refine ⟨id, before, after, passes, ?_⟩
      cases stepped
      rw [dropState_eq]
      simp [edgesAway, addEdge, without, passes.source, passes.target]
    · refine ih ?_ stepped
      rw [← tail_drop, place, tail_cons]

theorem fuse_eq_ok {earlier later : List Edge} (chains : g.Chains e earlier later)
    (fused : g.fuse earlier.length e = .ok g') :
    ∃ head tail, g.states[e.source]? = some head ∧ g.states[e.target]? = some tail ∧
      g' = g.without e.target (g.joined e tail) ((earlier ++ later).map (handed e)) g.start := by
  simp only [fuse, bind_eq_ok, state_eq_ok] at fused
  obtain ⟨tail, target, head, source, fused⟩ := fused
  refine ⟨head, tail, source, target, ?_⟩
  have rest : g.edges.eraseIdx earlier.length = earlier ++ later := by
    rw [chains.split, eraseIdx_append_of_length_le (Nat.le_refl _)]
    simp
  cases fused
  rw [dropState_eq, edgesAway]
  simp only [rest]
  have all : ((earlier ++ later).map (handed e)).filter (fun other => other.source ≠ e.target ∧
    other.target ≠ e.target) =
      (earlier ++ later).map (handed e) := by
    rw [filter_eq_self]
    intro other member
    simpa using chains.avoids other member
  exact congrArg (fun edges => g.without e.target (g.joined e tail) edges g.start) all

theorem fuseFrom?_eq_some {position : Nat} {earlier rest : List Edge}
    (place : g.edges = earlier ++ rest) (count : earlier.length = position)
    (stepped : g.fuseFrom? position rest = .ok (some g')) :
    ∃ e earlier later head tail, g.Chains e earlier later ∧ g.states[e.source]? = some head ∧
      g.states[e.target]? = some tail ∧
      g' = g.without e.target (g.joined e tail) ((earlier ++ later).map (handed e)) g.start := by
  induction rest generalizing position earlier with
  | nil => cases stepped
  | cons e later ih =>
    subst count
    rw [fuseFrom?] at stepped
    split at stepped
    next chain =>
      simp only [isChain, Bool.and_eq_true, decide_eq_true_eq] at chain
      obtain ⟨⟨⟨⟨plain, apart⟩, notStart⟩, exit⟩, entry⟩ := chain
      have chains : g.Chains e earlier later := ⟨place, plain, apart, notStart, exit, entry⟩
      rw [bind_eq_ok] at stepped
      obtain ⟨found, fused, stepped⟩ := stepped
      cases stepped
      obtain ⟨head, tail, source, target, rfl⟩ := fuse_eq_ok chains fused
      exact ⟨e, earlier, later, head, tail, chains, source, target, rfl⟩
    · have next : g.edges = (earlier ++ [e]) ++ later := by simp [place]
      exact ih next (by simp) stepped

-- A graph that is simplified: of the same shape, and with runs that settle in the same way.
structure Shrinks (g g' : Graph) : Prop extends Rewires g g' where
  settles : g.Orderly → ∀ effects effects', g.states.mapM compileState = .ok effects →
    g'.states.mapM compileState = .ok effects' → ∀ remaining memory symbols result,
      settle? g effects remaining g.start memory symbols = some result →
        settle? g' effects' remaining g'.start memory symbols = some result

theorem Rewires.compiles (rewires : g.Rewires g') : (compile g').Succeeds ↔
    (compile g).Succeeds := by
  simp only [succeeds_compile, rewires.nodes.mem_iff]

theorem Shrinks.refl (inRange : g.InRange) : g.Shrinks g where
  toRewires := .refl inRange
  settles _ effects effects' compiled compiled' remaining memory symbols result settled := by
    cases compiled.symm.trans compiled'
    exact settled

theorem Shrinks.trans {g'' : Graph} (first : g.Shrinks g') (second : g'.Shrinks g'') :
    g.Shrinks g'' where
  toRewires := first.toRewires.trans second.toRewires
  settles orderly effects effects'' compiled compiled'' remaining memory symbols result
    settled := by
    obtain ⟨p, between⟩ := first.compiles.mpr ⟨⟨g, effects⟩, compile_eq_ok.mpr ⟨rfl, compiled⟩⟩
    have between := (compile_eq_ok.mp between).2
    exact second.settles (first.orderly orderly) _ _ between compiled'' _ _ _ _
      (first.settles orderly _ _ compiled between _ _ _ _ settled)

theorem step?_cases (stepped : g.step? = .ok (some g')) :
    (∃ e, g.HandsOver e ∧ g' = g.without g.start g.states (g.edgesAway g.start) e.target) ∨
      (∃ gone before after, g.PassesThrough gone before after ∧
        g' = g.without gone g.states (g.edgesAway gone ++ [bypassing before after]) g.start) ∨
        ∃ e earlier later head tail, g.Chains e earlier later ∧ g.states[e.source]? = some head ∧
        g.states[e.target]? = some tail ∧ g' = g.without e.target (g.joined e tail)
            ((earlier ++ later).map (handed e)) g.start := by
  rw [step?, bind_eq_ok] at stepped
  obtain ⟨first?, first, stepped⟩ := stepped
  split at stepped
  · cases stepped
    exact .inl (dropEmptyStart?_eq_some first)
  · split at stepped
    next found second =>
      cases stepped
      exact .inr (.inl (bypassFrom?_eq_some rfl second))
    · exact .inr (.inr (fuseFrom?_eq_some (nil_append g.edges).symm rfl stepped))

theorem shrinks_of_step (inRange : g.InRange) (stepped : g.step? = .ok (some g')) :
    g.Shrinks g' := by
  rcases step?_cases stepped with ⟨e, step, rfl⟩ | ⟨gone, before, after, step, rfl⟩ | ⟨e, earlier,
    later, head, tail, step, source, target, rfl⟩
  · refine ⟨step.rewires inRange, ?_⟩
    intro orderly effects effects' compiled compiled' remaining memory symbols result settled
    exact (step.catchesUp compiled compiled').settle? (.inr ⟨rfl, rfl⟩) settled
  · refine ⟨step.rewires inRange, ?_⟩
    intro orderly effects effects' compiled compiled' remaining memory symbols result settled
    exact (step.catchesUp inRange orderly compiled compiled').settle? ⟨step.notStart.symm, rfl⟩
      settled
  · refine ⟨step.rewires inRange source target, ?_⟩
    intro orderly effects effects' compiled compiled' remaining memory symbols result settled
    exact (step.catchesUp source target compiled compiled').settle? ⟨step.notStart.symm, rfl⟩
      settled

theorem length_of_step (stepped : g.step? = .ok (some g')) :
    g'.states.length + 1 = g.states.length := by
  have erased {states : List State} {gone : Nat} {s : State} (found : states[gone]? = some s) :
    (states.eraseIdx gone).length + 1 = states.length := by
    obtain ⟨inside, -⟩ := List.getElem?_eq_some_iff.mp found
    rw [length_eraseIdx_of_lt inside]
    omega
  rcases step?_cases stepped with ⟨e, step, rfl⟩ | ⟨gone, before, after, step, rfl⟩ | ⟨e, earlier,
    later, head, tail, step, source, target, rfl⟩
  · exact erased step.empty.choose_spec
  · exact erased step.empty.choose_spec
  · have kept : (g.joined e tail).length = g.states.length := length_modify _ _ _
    rw [← kept]
    refine erased (s := tail) ?_
    rw [joined, getElem?_modify, target]
    simp [step.apart]

theorem succeeds_state (inside : id < g.states.length) : (g.state id).Succeeds :=
  ⟨_, state_eq_ok.mpr (getElem?_eq_getElem inside)⟩

theorem succeeds_fuse (inRange : g.InRange) (position : Nat) (member : e ∈ g.edges) :
    (g.fuse position e).Succeeds := by
  have ends := inRange.edges e member
  obtain ⟨tail, target⟩ := succeeds_state ends.2
  obtain ⟨head, source⟩ := succeeds_state ends.1
  rw [fuse, target, source]
  exact Outcome.succeeds_ok _

theorem succeeds_fuseFrom? (inRange : g.InRange) (position : Nat) {edges : List Edge}
    (known : ∀ e ∈ edges, e ∈ g.edges) : (g.fuseFrom? position edges).Succeeds := by
  induction edges generalizing position with
  | nil => exact Outcome.succeeds_ok _
  | cons e rest ih =>
    rw [fuseFrom?]
    split
    · obtain ⟨fused, result⟩ := succeeds_fuse inRange position (known e mem_cons_self)
      rw [result]
      exact Outcome.succeeds_ok _
    · exact ih (position + 1) fun other member => known other (mem_cons_of_mem e member)

theorem succeeds_dropEmptyStart? (inRange : g.InRange) : g.dropEmptyStart?.Succeeds := by
  obtain ⟨s, state⟩ := succeeds_state inRange.start
  rw [dropEmptyStart?, state, ok_bind]
  split
  · exact Outcome.succeeds_ok _
  · split
    · split <;> exact Outcome.succeeds_ok _
    · exact Outcome.succeeds_ok _

theorem succeeds_step? (inRange : g.InRange) : g.step?.Succeeds := by
  obtain ⟨first?, first⟩ := succeeds_dropEmptyStart? inRange
  rw [step?, first, ok_bind]
  split
  · exact Outcome.succeeds_ok _
  · split
    · exact Outcome.succeeds_ok _
    · exact succeeds_fuseFrom? inRange 0 fun _ member => member

theorem collapseWith_shrinks (inRange : g.InRange) (fuel : Nat) :
    ∃ g', collapseWith fuel g = .ok g' ∧ g.Shrinks g' := by
  induction fuel generalizing g with
  | zero => exact ⟨g, rfl, .refl inRange⟩
  | succ fuel ih =>
    obtain ⟨next?, stepped⟩ := succeeds_step? inRange
    rw [collapseWith, stepped, ok_bind]
    cases next? with
    | none => exact ⟨g, rfl, .refl inRange⟩
    | some next =>
      have shrinks := shrinks_of_step inRange stepped
      obtain ⟨g', collapsed, further⟩ := ih shrinks.inRange
      exact ⟨g', collapsed, shrinks.trans further⟩

theorem collapse_shrinks (inRange : g.InRange) : ∃ g', g.collapse = .ok g' ∧ g.Shrinks g' :=
  collapseWith_shrinks inRange _

theorem collapseWith_ends {fuel : Nat} (enough : g.states.length < fuel)
    (collapsed : collapseWith fuel g = .ok g') : g'.step? = .ok none := by
  induction fuel generalizing g with
  | zero => cases enough
  | succ fuel ih =>
    rw [collapseWith, bind_eq_ok] at collapsed
    obtain ⟨next?, stepped, collapsed⟩ := collapsed
    cases next? with
    | none =>
      cases collapsed
      exact stepped
    | some next =>
      have fewer := length_of_step stepped
      exact ih (by omega) collapsed

end TraceFlow.Graph
