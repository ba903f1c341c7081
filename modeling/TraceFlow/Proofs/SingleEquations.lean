import TraceFlow.Proofs.CanonicalDrafts
import TraceFlow.Proofs.RoutineRuns

set_option autoImplicit false

namespace TraceFlow

open Builder Lowering

variable {kit : Toolkit} {e : Equation} {nodes : Nodes} {child : Draft}

-- The function that has the equation as its body and returns what this computes.
def Equation.over (e : Equation) (inputs : List Var) : Lambda :=
  ⟨inputs, [], [], [], [e], e.outputs.map .var⟩

section

variable {d : Draft} {rest : List Draft} {mapped unnamed : Nat} {b' : Builder}

theorem gives_lowerEquation_flat {apply : Apply} (known : kit.rule? e.primitive = some apply)
    (flat : Flat apply nodes) {u : Unit} :
    Gives (lowerEquation kit e) ⟨d :: rest, mapped, unnamed⟩ u b' ↔ ∃ names outputs opened emitted,
    e.effectful = false ∧
      List.Forall₂ (Resolved d true) e.inputs names ∧ Creates "" d mapped e.outputs outputs opened ∧
      Naming.isIdentifier (e.label outputs) = true ∧ nodes opened.graph.arrays names outputs e =
      .ok emitted ∧ (opened.followedBy (.single (e.label outputs) emitted)).check = .ok () ∧
      b' = ⟨opened.followedBy (.single (e.label outputs) emitted) :: rest,
        mapped + e.outputs.length, unnamed⟩ := by
  rw [lowerEquation_eq, place, known]
  constructor
  · intro given
    obtain ⟨⟨state, reported?⟩, _, placed, settled⟩ := gives_bind.mp given
    obtain ⟨pure, placed⟩ := gives_unless.mp placed
    obtain ⟨names, _, found, placed⟩ := gives_bind.mp placed
    obtain ⟨resolved, rfl⟩ := gives_resolve_known.mp found
    obtain ⟨outputs, _, created, placed⟩ := gives_bind.mp placed
    obtain ⟨opened, creates, rfl⟩ := gives_createVars.mp created
    obtain ⟨_, _, appended, placed⟩ := gives_bind.mp placed
    obtain ⟨labelled, rfl, rfl⟩ := gives_append_opened.mp appended
    obtain ⟨_, _, applied, placed⟩ := gives_bind.mp placed
    obtain ⟨rfl, emitted, noded, rfl⟩ := (gives_flat flat).mp applied
    obtain ⟨same, rfl⟩ := gives_pure.mp placed
    cases same
    obtain ⟨checked, rfl⟩ := (gives_settle (.inl ⟨rfl, rfl⟩)).mp settled
    exact ⟨names, outputs, opened, emitted, by simpa using pure, resolved, creates, labelled, noded,
      checked, rfl⟩
  · rintro ⟨names, outputs, opened, emitted, pure, resolved, creates, labelled, noded, checked, rfl⟩
    refine .bind (a := (opened.graph.states.length, none)) (gives_unless.mpr ⟨by simp [pure], ?_⟩)
      ((gives_settle (.inl ⟨rfl, rfl⟩)).mpr ⟨checked, rfl⟩)
    refine .bind (gives_resolve_known.mpr ⟨resolved, rfl⟩)
      (.bind (gives_createVars.mpr ⟨opened, creates, rfl⟩) ?_)
    refine .bind (gives_append_opened.mpr ⟨labelled, rfl, rfl⟩)
      (.bind ((gives_flat flat).mpr ⟨rfl, emitted, noded, rfl⟩) ?_)
    exact gives_pure.mpr ⟨rfl, rfl⟩

theorem gives_enter_plain {f : Lambda} (plain : f.consts = []) {u : Unit} :
    Gives (enter f) ⟨d :: rest, mapped, unnamed⟩ u b' ↔ ∃ inputs entered,
    Creates "" d mapped f.inputs inputs entered ∧
      b' = ⟨{ entered with inputs? := some inputs } :: rest, mapped + f.inputs.length,
        unnamed⟩ := by
  rw [gives_enter]
  constructor
  · rintro ⟨d₁, d₂, mapped₁, inputs, constants, creates, rfl⟩
    cases constants with
    | none => exact ⟨inputs, d₂, creates, rfl⟩
    | some nonempty => simp [plain] at nonempty
  · rintro ⟨inputs, entered, creates, rfl⟩
    exact ⟨d, entered, mapped, inputs, .none (by simp [plain]), creates, rfl⟩

theorem gives_lowerEquations_single (kept : e.outputs.any Var.isDropped = false) {count : Nat} :
    Gives (lowerEquations kit 0 [e]) ⟨d :: rest, mapped, unnamed⟩ count b' ↔
      count = 1 ∧ Gives (lowerEquation kit e) ⟨d :: rest, mapped, unnamed⟩ () b' := by
  rw [lowerEquations, if_neg (by simp [kept]), gives_bind]
  constructor
  · rintro ⟨⟨⟩, between, lowered, given⟩
    obtain ⟨rfl, rfl⟩ := gives_pure.mp given
    exact ⟨rfl, gives_inEquation.mp lowered⟩
  · rintro ⟨rfl, lowered⟩
    exact ⟨(), b', gives_inEquation.mpr lowered, gives_pure.mpr ⟨rfl, rfl⟩⟩

end

-- How an equation is lowered as a function of its own: the draft with the inputs, the one with the
-- outputs, and what stands in the state of the equation.
structure LowersSingle (nodes : Nodes) (e : Equation) (inputs : List Var) (ins : List String)
    (entered : Draft) (names : List (Option String))
    (outs : List String) (opened : Draft) (emitted : List Node) (results : List (Option String)) :
    Prop where
  pure : e.effectful = false
  enters : Creates "" (Draft.new "unnamed_SDFG_0") 0 inputs ins entered
  resolved : List.Forall₂ (Resolved entered true) e.inputs names
  creates : Creates "" { entered with inputs? := some ins } inputs.length e.outputs outs opened
  labelled : Naming.isIdentifier (e.label outs) = true
  noded : nodes opened.graph.arrays names outs e = .ok emitted
  checked : (opened.followedBy (.single (e.label outs) emitted)).check = .ok ()
  returned : List.Forall₂ (Resolved opened false) (e.outputs.map .var) results

def Equation.lowered (e : Equation) (outs : List String) (opened : Draft) (emitted : List Node)
    (results : List (Option String)) : Draft :=
  { opened.followedBy (.single (e.label outs) emitted) with outputs? := some (results.filterMap id)
    }

theorem lower_over_eq_ok {inputs : List Var} {rule : Rule}
    (listed : RuleBook.builtin.get? e.primitive = some rule)
    (flat : ∀ kit, Flat (rule.apply kit) nodes) (kept : e.outputs.any Var.isDropped = false) :
    (lower .builtin (e.over inputs) none (.new 0)).1 = .ok child ↔
    ∃ ins entered names outs opened emitted results,
      LowersSingle nodes e inputs ins entered names outs opened emitted results ∧
      child = e.lowered outs opened emitted results := by
  obtain ⟨fuel, enough⟩ : ∃ fuel, levels .builtin (e.over inputs) = fuel + 1 := by
    refine Nat.exists_eq_succ_of_ne_zero ?_
    rw [levels]
    exact Nat.mul_ne_zero (Nat.succ_ne_zero _) (Nat.succ_ne_zero _)
  have known : (toolkit .builtin (fuel + 1)).rule? e.primitive =
    some (rule.apply (toolkit .builtin fuel)) := by
    simp [toolkit, listed]
  rw [lower, enough, ends_iff]
  change (∃ b', Gives (lowerWith (toolkit .builtin (fuel + 1)) (e.over inputs) none) ⟨[], 0, 0⟩
    child b') ↔ _
  simp only [gives_lowerWith_iff]
  constructor
  · rintro ⟨_, -, title, unnamed₁, outputs, d, rest, mapped', unnamed', ⟨rfl, rfl⟩, lowered, rfl, -⟩
    rw [lowerBody] at lowered
    obtain ⟨⟨⟩, _, entering, given⟩ := gives_bind.mp lowered
    obtain ⟨count, _, all, given⟩ := gives_bind.mp given
    obtain ⟨ins, entered, enters, rfl⟩ := (gives_enter_plain rfl).mp entering
    obtain ⟨rfl, lowered⟩ := (gives_lowerEquations_single kept).mp all
    obtain ⟨names, outs, opened, emitted, pure, resolved, creates, labelled, noded, checked, rfl⟩ :=
      (gives_lowerEquation_flat known (flat _)).mp lowered
    obtain ⟨results, _, found, given⟩ := gives_bind.mp given
    obtain ⟨returned, rfl⟩ := gives_resolve_known.mp found
    obtain ⟨rfl, same⟩ := gives_pure.mp given
    cases same
    rw [Nat.zero_add] at creates
    exact ⟨ins, entered, names, outs, opened, emitted, results, ⟨pure, enters, resolved, creates,
      labelled, noded, checked, returned⟩, rfl⟩
  · rintro ⟨ins, entered, names, outs, opened, emitted, results, lowers, rfl⟩
    have body : Gives (lowerBody (toolkit .builtin (fuel + 1)) (e.over inputs))
      ⟨[Draft.new "unnamed_SDFG_0"], 0, 1⟩ (results.filterMap id)
        ⟨[opened.followedBy (.single (e.label outs) emitted)], inputs.length + e.outputs.length,
          1⟩ := by
      have entering : Gives (enter (e.over inputs)) ⟨[Draft.new "unnamed_SDFG_0"], 0, 1⟩ ()
        ⟨[{ entered with inputs? := some ins }], inputs.length, 1⟩ :=
        (gives_enter_plain rfl).mpr ⟨ins, entered, lowers.enters, by rw [Nat.zero_add]; rfl⟩
      have equation : Gives (lowerEquation (toolkit .builtin (fuel + 1)) e)
        ⟨[{ entered with inputs? := some ins }], inputs.length, 1⟩ ()
          ⟨[opened.followedBy (.single (e.label outs) emitted)], inputs.length + e.outputs.length,
            1⟩ :=
        (gives_lowerEquation_flat known (flat _)).mpr ⟨names, outs, opened, emitted,
          lowers.pure, lowers.resolved, lowers.creates,
          lowers.labelled, lowers.noded, lowers.checked, rfl⟩
      rw [lowerBody]
      refine .next entering (.bind ((gives_lowerEquations_single kept).mpr ⟨rfl, equation⟩) ?_)
      exact .bind (gives_resolve_known.mpr ⟨lowers.returned, rfl⟩) (gives_pure.mpr ⟨rfl, rfl⟩)
    exact ⟨_, rfl, _, _, _, _, _, _, _, ⟨rfl, rfl⟩, body, rfl, rfl⟩

namespace LowersSingle

variable {nodes : Nodes} {e : Equation} {inputs : List Var} {ins : List String} {entered : Draft}
  {names : List (Option String)} {outs : List String}
  {opened : Draft} {emitted : List Node} {results : List (Option String)}

variable {name : String} {v : Var}

variable (lowers : LowersSingle nodes e inputs ins entered names outs opened emitted results)

include lowers

theorem row (others : List Node) : (e.lowered outs opened others results).Row ⟨"initial_state", []⟩
    [⟨e.label outs, others⟩] := by
  have machine : opened.machine = (Draft.new _).machine :=
    lowers.creates.machine_eq.trans lowers.enters.machine_eq
  have block : opened.block = .single "initial_state" [] := congrArg Prod.fst machine
  refine ⟨?_, congrArg (·.2.1) machine⟩
  change (opened.followedBy (.single (e.label outs) others)).block = _
  rw [Draft.block_followedBy, block]
  rfl

theorem constants_eq : (e.lowered outs opened emitted results).graph.constants = {} :=
  lowers.creates.constants_eq.trans lowers.enters.constants_eq

theorem inputs_eq : (e.lowered outs opened emitted results).inputs = ins := by
  have inputs : opened.inputs? = some ins := congrArg Draft.inputs? lowers.creates.eq
  change opened.inputs?.getD [] = ins
  rw [inputs]
  rfl

theorem variable_ (name : String) :
    (e.lowered outs opened emitted results).graph.constants.get? name = none := by
  rw [lowers.constants_eq]
  rfl

theorem declares_input {j : Nat}
    (listed : inputs[j]? = some v) : ∃ name array, ins[j]? = some name ∧
    entered.nameOf? v = some name ∧ entered.graph.arrays.contains name = true ∧
      (e.lowered outs opened emitted results).Declares name array ∧ array.elem = v.elem ∧
      array.shape = arrayShape v := by
  obtain ⟨name, array, named, known, present, made⟩ := lowers.enters.getElem? listed
  obtain ⟨shape, elem, -, -⟩ := Descriptor.dense_eq_ok made
  have contained : entered.graph.arrays.contains name = true := by rw [Dict.contains, present]; rfl
  exact ⟨name, array, named, known, contained, ⟨lowers.creates.get?_older present,
    lowers.variable_ name⟩, elem, shape⟩

theorem declares_output {j : Nat} (listed : e.outputs[j]? = some v) :
    ∃ name array, outs[j]? = some name ∧ name ∉ ins ∧
      (e.lowered outs opened emitted results).Declares name array ∧ array.elem = v.elem := by
  obtain ⟨name, array, named, -, present, made⟩ := lowers.creates.getElem? listed
  obtain ⟨-, elem, -, -⟩ := Descriptor.dense_eq_ok made
  refine ⟨name, array, named, fun member => ?_, ⟨present, lowers.variable_ name⟩, elem⟩
  have old : entered.graph.arrays.contains name = true := lowers.enters.present member
  have new : entered.graph.arrays.contains name = false :=
    lowers.creates.fresh.2 name (List.mem_of_getElem? named)
  rw [new] at old
  cases old

theorem operand_input (closed : ∀ v, .var v ∈ e.inputs → v ∈ inputs) (member : some name ∈ names) :
    ∃ (k : Nat) (v : Var), .var v ∈ e.inputs ∧ inputs[k]? = some v ∧ ins[k]? = some name := by
  obtain ⟨atom, listed, resolved⟩ := Outcome.forall₂_right lowers.resolved member
  cases atom with
  | literal s => exact resolved.elim
  | var v =>
    obtain ⟨k, known⟩ := List.mem_iff_getElem?.mp (closed v listed)
    obtain ⟨found, _, named, mapped, -⟩ := lowers.declares_input known
    cases mapped.symm.trans resolved.1
    exact ⟨k, v, listed, known, named⟩

end LowersSingle

end TraceFlow
