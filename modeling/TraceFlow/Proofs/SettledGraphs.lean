import TraceFlow.Proofs.Simplification

set_option autoImplicit false

namespace TraceFlow.Graph

open List

variable {g : Graph}

theorem collapse_of_ended (ended : g.step? = .ok none) : g.collapse = .ok g := by
  rw [collapse, collapseWith, ended]
  rfl

theorem simplify_of_nodes (ended : g.step? = .ok none)
    (nodes : ∀ node ∈ g.nodes, simplifyNode node = .ok node) : g.simplify = .ok g := by
  have same {α : Type} {f : α → Outcome α} {xs : List α} (each : ∀ x ∈ xs, f x = .ok x) :
    xs.mapM f = .ok xs :=
    mapM_eq_ok.mpr (forall₂_same.mpr each)
  have states : g.states.mapM simplifyState = .ok g.states := same fun s state => by
    rw [simplifyState, same fun node member => nodes node (mem_flatMap.mpr ⟨s, state, member⟩)]
    cases s
    rfl
  rw [simplify_eq, states]
  cases g
  exact collapse_of_ended ended

theorem ended_of_simplify {g' : Graph} (inRange : g.Everywhere InRange)
    (simplified : g.simplify = .ok g') :
    (g'.Everywhere fun h => h.step? = .ok none) ∧ g'.simplify = .ok g' := by
  induction g using nested_induction generalizing g' with
  | step g ih =>
    obtain ⟨_, simplified', tidies, -⟩ := simplify_tidies g inRange
    cases simplified.symm.trans simplified'
    have ended : g'.step? = .ok none := by
      rw [simplify_eq, bind_eq_ok] at simplified
      obtain ⟨states, -, collapsed⟩ := simplified
      exact collapseWith_ends (Nat.lt_succ_self _) collapsed
    have called {site : CallSite} {callee' : Graph} (member : .call site callee' ∈ g'.nodes) :
        (callee'.Everywhere fun h => h.step? = .ok none) ∧ callee'.simplify = .ok callee' := by
      obtain ⟨nodes, mapped, perm⟩ := tidies.nodes
      obtain ⟨place, found⟩ := mem_iff_getElem?.mp (perm.mem_iff.mp member)
      obtain ⟨node, known, became⟩ := Outcome.exists_of_forall₂ (mapM_eq_ok.mp mapped) found
      cases node with
      | copy source target => cases became
      | map m => cases became
      | call site callee =>
        obtain ⟨_, simpler, became⟩ := bind_eq_ok.mp became
        cases became
        have here := mem_of_getElem? known
        exact ih site callee here (inRange.callee here) simpler
    refine ⟨.intro g' ended fun site callee member => (called member).1,
      simplify_of_nodes ended fun node member => ?_⟩
    cases node with
    | copy source target => rfl
    | map m => rfl
    | call site callee => rw [simplifyNode, (called member).2]; rfl

structure Settles (g g' : Graph) (count : Nat) : Prop where
  counted : g'.states.length + count = g.states.length
  checked : g'.Everywhere fun h => h.check = .ok ()
  ended : g'.Everywhere fun h => h.step? = .ok none
  arrays : g'.arrays = g.arrays
  constants : g'.constants = g.constants
  args : g'.args = g.args
  freeSymbols : g'.freeSymbols = g.freeSymbols
  nodes : ∃ nodes, g.nodes.mapM simplifyNode = .ok nodes ∧ g'.nodes.Perm nodes
  again : g'.simplifyCounting = .ok (g', 0)

theorem simplifyCounting_settles {g : Graph} (valid : g.check = .ok ()) :
    ∃ g' count, g.simplifyCounting = .ok (g', count) ∧ g.Settles g' count := by
  have valid := check_eq_ok.mp valid
  have inRange := everywhere_inRange g valid
  obtain ⟨g', simplified, tidies, -⟩ := simplify_tidies g inRange
  obtain ⟨ended, again⟩ := ended_of_simplify inRange simplified
  have fewer := tidies.fewer
  have declared := tidies.declared
  refine ⟨g', g.states.length - g'.states.length, ?_, ?_⟩
  · rw [simplifyCounting, simplified, ok_bind, if_neg (by omega)]
    rfl
  · refine ⟨by omega, (everywhere_valid g' (tidies.valid valid)).imp fun _ => check_eq_ok.mpr,
      ended, ?_, ?_, ?_, tidies.freeSymbols, tidies.nodes, ?_⟩
    · rw [declared]; rfl
    · rw [declared]; rfl
    · rw [declared]; rfl
    · rw [simplifyCounting, again, ok_bind, if_neg (by omega), Nat.sub_self]
      rfl

theorem simplifyCounting_settles_forked :
    ∃ g' count, (forked overlappingEdges).simplifyCounting = .ok (g', count) ∧
    (forked overlappingEdges).Settles g' count :=
  simplifyCounting_settles (by decide +kernel)

end TraceFlow.Graph
