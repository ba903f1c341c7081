import TraceFlow.Proofs.AkinGraphs
import TraceFlow.Proofs.UniformSteps

set_option autoImplicit false

namespace TraceFlow

open Builder Outcome List

-- A toolkit that treats a function and its equations alike under any numbers. A function that is
-- given a name carries it as its title.
structure Toolkit.Uniform (σ : Nat → Nat) (kit : Toolkit) : Prop where
  lower (titles : List (String × String)) (f : Lambda) (name? : Option String) :
    TraceFlow.Uniform σ titles (fun d d' => ∃ both, d.Kin σ both d' ∧ ∀ name ∈ name?,
      both = (name, name)) (kit.lower f name?) (kit.lower (f.renamed σ) name?)
  rule {primitive : String} {apply : Apply} (known : kit.rule? primitive = some apply)
    (titles : String × String) (others : List (String × String))
    (names : List (Option String)) (outputs : List String) (e : Equation) (state : Nat) :
    TraceFlow.Uniform σ (titles :: others) Eq (apply names outputs e state)
      (apply names outputs (e.renamed σ) state)

-- A rule that treats an equation alike under any numbers, as long as its toolkit does.
def Rule.Uniform (rule : Rule) : Prop :=
  ∀ (σ : Nat → Nat), Function.Injective σ → ∀ kit : Toolkit, kit.Uniform σ →
    ∀ titles others names outputs e state,
    TraceFlow.Uniform σ (titles :: others) Eq (rule.apply kit names outputs e state)
      (rule.apply kit names outputs (e.renamed σ) state)

def RuleBook.Uniform (book : RuleBook) : Prop :=
  ∀ primitive rule, book.get? primitive = some rule → rule.Uniform

theorem Emits.uniform {σ : Nat → Nat} {titles : String × String} {others : List (String × String)}
    {state : Nat} {step : LowerM (Option Nat)}
    {nodes : Dict Descriptor → Outcome (List Node)} (emits : Emits state step nodes) :
    Uniform σ (titles :: others) Eq step step := by
  induction emits with
  | refuse => exact .refuse rfl
  | nothing => exact .pure rfl
  | lift _ ih => exact .seq (.lift_self _) ih
  | array _ ih => exact .seq (Uniform.array _) ih
  | emit _ ih => exact .seq (Uniform.emit _ _) fun _ => ih
  | guarded _ ih => exact .guarded rfl ih

namespace Nested

variable {σ : Nat → Nat} {titles : String × String} {others : List (String × String)}
  {kit : Toolkit}

variable {child child' : Draft} {name : String}

theorem embed_kin (kin : child.Kin σ (name, name) child') (state : Nat)
    (inputs outputs : List String) :
    embed state child' inputs outputs = embed state child inputs outputs := by
  obtain ⟨rfl, rfl⟩ := kin
  simp only [Draft.renamed, Graph.titled_self]
  rfl

theorem uniform_embed (kin : child.Kin σ (name, name) child') (state : Nat)
    (inputs outputs : List String) :
    Uniform σ (titles :: others) Eq (embed state child inputs outputs)
      (embed state child' inputs outputs) := by
  rw [embed_kin kin]
  unfold embed
  exact .guarded rfl (.seq (.lift_self _) fun _ => Uniform.emit _ _)

theorem uniform_promoteFrom (pattern : String) (i : Nat) (names : List (Option String))
    (atoms : List Atom) : Uniform σ (titles :: others) Eq (promoteFrom pattern i (names.zip atoms))
      (promoteFrom pattern i (names.zip (atoms.map (Atom.renamed σ)))) := by
  induction names generalizing i atoms with
  | nil => exact .pure rfl
  | cons name? names ih =>
    rcases atoms with _ | ⟨atom, atoms⟩
    · exact .pure rfl
    simp only [map_cons, zip_cons_cons, promoteFrom]
    cases name? with
    | some name => exact .seq (.pure rfl) fun _ => .seq (ih _ _) fun _ => .pure rfl
    | none =>
      cases atom with
      | literal s =>
        refine .seq (.lift_self _) fun value => .seq (Uniform.changeGraph fun _ _ kin =>
          kin.addConstant _ value) fun _ => ?_
        exact .seq (.pure rfl) fun _ => .seq (ih _ _) fun _ => .pure rfl
      | var v => exact .bind (.refuse rfl) fun _ _ (impossible : False) => impossible.elim

theorem uniform_call (uniform : kit.Uniform σ) (names : List (Option String))
    (outputs : List String) (e : Equation) (state : Nat) :
    Uniform σ (titles :: others) Eq (call kit names outputs e state)
      (call kit names outputs (e.renamed σ) state) := by
  unfold call
  simp only [Equation.renamed_params, Params.isNone_renamed, Params.lambda_renamed,
    Params.contains_renamed, Params.str_renamed]
  refine .seq ?_ fun _ => ?_
  · exact .seq (.ite (.refuse rfl) (.pure rfl)) fun _ => .seq (.ite (.refuse rfl) (.pure rfl))
      fun _ => .pure rfl
  cases allNames? names with
  | none => exact .refuse rfl
  | some inputs =>
    have found : Likewise (fun f f' => f' = f.renamed σ) (Params.lambda e.params "jaxpr")
      ((Params.lambda e.params "jaxpr").map (Lambda.renamed σ)) := by
      cases Params.lambda e.params "jaxpr" with
      | error failure => exact .fails rfl
      | ok f => exact .gives rfl
    refine .bind (.lift found) fun callee callee' same => ?_
    subst same
    have named (label : String) :
      Uniform σ (titles :: others) Eq (kit.lower callee (some label) >>=
        fun child => embed state child inputs outputs >>= fun _ => pure (none : Option Nat))
        (kit.lower (callee.renamed σ) (some label) >>= fun child => embed state child inputs
          outputs >>= fun _ => pure none) := by
      refine .bind (uniform.lower _ callee (some label)) fun child child' related => ?_
      obtain ⟨_, kin, titled⟩ := related
      obtain rfl := titled label rfl
      exact .seq (uniform_embed kin _ _ _) fun _ => .pure rfl
    exact .ite (.seq (.lift_self _) fun _ => named _) (.seq (.pure rfl) fun _ => named _)

theorem uniform_selection (pattern : String) (name? : Option String) (selector : Atom)
    (state : Nat) : Uniform σ (titles :: others) Eq (selection pattern name? selector state)
      (selection pattern name? (selector.renamed σ) state) := by
  unfold selection
  cases name? with
  | some name =>
    refine .seq (Uniform.append _ _ _ _) fun _ => .seq (Uniform.changeGraph fun g g' kin => ?_)
      fun _ => .pure rfl
    obtain ⟨title, rfl⟩ := kin
    exact .gives ⟨title, rfl⟩
  | none =>
    cases selector with
    | literal s => exact .pure rfl
    | var v => exact .refuse rfl

theorem uniform_branchStates (uniform : kit.Uniform σ) (pattern : String) (operand : Operand)
    (source : Nat) (inputs outputs : List String) (i : Nat) (branches : List Lambda) :
    Uniform σ (titles :: others) Eq
      (branchStates kit pattern operand source inputs outputs i branches)
      (branchStates kit pattern operand source inputs outputs i
        (branches.map (Lambda.renamed σ))) := by
  induction branches generalizing i with
  | nil => exact .pure rfl
  | cons branch rest ih =>
    refine .bind (uniform.lower _ branch _) fun child child' related => ?_
    obtain ⟨_, kin, titled⟩ := related
    obtain rfl := titled _ rfl
    exact .seq (Uniform.append _ _ _ _) fun state => .seq (uniform_embed kin _ _ _) fun _ => .seq
      (ih _) fun _ => .pure rfl

theorem uniform_cond (uniform : kit.Uniform σ) (names : List (Option String))
    (outputs : List String) (e : Equation) (state : Nat) :
    Uniform σ (titles :: others) Eq (cond kit names outputs e state)
      (cond kit names outputs (e.renamed σ) state) := by
  unfold cond
  rw [Equation.renamed_inputs]
  rcases names with _ | ⟨name?, names⟩
  · exact .refuse rfl
  rcases e.inputs with _ | ⟨selector, atoms⟩
  · exact .refuse rfl
  simp only [map_cons, Atom.elem_renamed, Equation.renamed_params, Params.lambdas_renamed]
  have found : Likewise (fun fs fs' => fs' = fs.map (Lambda.renamed σ))
    (Params.lambdas e.params "branches")
      ((Params.lambdas e.params "branches").map (List.map (Lambda.renamed σ))) := by
    cases Params.lambdas e.params "branches" with
    | error failure => exact .fails rfl
    | ok fs => exact .gives rfl
  refine .guarded rfl (.bind (.lift found) fun branches branches' same => ?_)
  subst same
  refine .bind Uniform.graph fun g g' kin => ?_
  obtain ⟨-, rfl⟩ := kin
  refine .seq (.lift_self (g.state state)) fun place => ?_
  refine .seq (uniform_promoteFrom _ _ _ _) fun inputs => .seq (uniform_selection _ _ _ _)
    fun selected => ?_
  refine .seq (uniform_branchStates uniform _ _ _ _ _ _ _) fun states => ?_
  cases states with
  | nil => exact .refuse rfl
  | cons first following =>
    refine .seq (Uniform.append _ _ _ _) fun join => .seq (Uniform.changeGraph fun g g' kin => ?_)
      fun _ => .pure rfl
    -- The edges to the join leave the title alone.
    have joined (following : List Nat) (g : Graph) (title : String) :
        (following.foldl (fun g source => g.addEdge { source, target := join }) g).name = g.name ∧
          following.foldl (fun g source => g.addEdge { source, target := join }) (g.titled title) =
            (following.foldl (fun g source => g.addEdge { source, target := join }) g).titled
              title := by
      induction following generalizing g with
      | nil => exact ⟨rfl, rfl⟩
      | cons source rest ih => exact ih (g.addEdge { source, target := join })
    obtain ⟨title, rfl⟩ := kin
    exact .gives ⟨(joined following g titles.2).1.trans title, (joined following g titles.2).2⟩

end Nested

theorem Draft.Kin.akin {σ : Nat → Nat} {titles : String × String} {d d' : Draft}
    (kin : d.Kin σ titles d') : d.Akin d' := by
  obtain ⟨-, rfl⟩ := kin
  exact ⟨⟨rfl, rfl⟩, rfl, rfl, rfl, rfl⟩

namespace Lowering

variable {σ : Nat → Nat} {titles : String × String} {others : List (String × String)}
  {kit : Toolkit}

theorem uniform_bindConstants (pairs : List (String × Tensor)) : Uniform σ (titles :: others) Eq
    (bindConstants pairs) (bindConstants pairs) := by
  induction pairs with
  | nil => exact .pure rfl
  | cons pair rest ih =>
    exact .seq (Uniform.changeGraph fun _ _ kin => kin.bindConstant pair.1 pair.2) fun _ => ih

theorem uniform_settle (primitive : String) (state : Nat) (reported? : Option Nat) :
    Uniform σ (titles :: others) Eq (settle primitive state reported?)
      (settle primitive state reported?) := by
  refine .bind Uniform.draft fun d d' kin => ?_
  have checked : Uniform σ (titles :: others) Eq (draft >>= fun d => lift d.check)
    (draft >>= fun d => lift d.check) :=
    .bind Uniform.draft fun _ _ kin => .lift kin.akin.check
  obtain ⟨title, rfl⟩ := kin
  cases reported? with
  | none => exact .guarded rfl checked
  | some terminal => exact .seq (Uniform.setDraft ⟨title, rfl⟩) fun _ => checked

theorem uniform_inEquation {α β : Type} {related : α → β → Prop} (e e' : Equation) {step : LowerM α}
    {step' : LowerM β} (uniform : Uniform σ (titles :: others) related step step') :
    Uniform σ (titles :: others) related (inEquation e step) (inEquation e' step') := by
  intro b b' kin
  obtain ⟨likewise, kin⟩ := uniform b b' kin
  unfold inEquation
  generalize step b = ran at likewise kin
  generalize step' b' = ran' at likewise kin
  obtain ⟨outcome, after⟩ := ran
  obtain ⟨outcome', after'⟩ := ran'
  cases likewise with
  | gives holds => exact ⟨.gives holds, kin⟩
  | fails same =>
    exact ⟨.fails (by rw [Failure.kind_inEquation, Failure.kind_inEquation, same]), kin⟩

section Bodies

variable (injective : Function.Injective σ)

include injective

theorem uniform_createConstants (f : Lambda) : Uniform σ (titles :: others) Eq (createConstants f)
    (createConstants (f.renamed σ)) := by
  unfold createConstants
  simp only [Lambda.renamed_consts, Lambda.renamed_constVars]
  exact .ite (.seq (Uniform.createVars injective _ _) fun _ => uniform_bindConstants _) (.pure rfl)

theorem uniform_lowerEquation (uniform : kit.Uniform σ) (e : Equation) :
    Uniform σ (titles :: others) Eq (lowerEquation kit e) (lowerEquation kit (e.renamed σ)) := by
  unfold lowerEquation
  simp only [Equation.renamed_effectful, Equation.renamed_inputs, Equation.renamed_outputs,
    Equation.renamed_primitive]
  refine .guarded rfl (.seq (Uniform.resolve injective _ _) fun inputs => .seq
    (Uniform.createVars injective _ _) fun outputs => ?_)
  cases known : kit.rule? e.primitive with
  | none => exact .refuse rfl
  | some apply =>
    exact .seq (Uniform.append _ _ _ _) fun state => .seq (uniform.rule known _ _ _ _ e state)
      fun _ => uniform_settle _ _ _

theorem uniform_lowerEquations (uniform : kit.Uniform σ) (done : Nat) (equations : List Equation) :
    Uniform σ (titles :: others) Eq (lowerEquations kit done equations)
      (lowerEquations kit done (equations.map (Equation.renamed σ))) := by
  induction equations generalizing done with
  | nil => exact .pure rfl
  | cons e rest ih =>
    simp only [map_cons, lowerEquations, Equation.renamed_outputs, any_map, all_map,
      Function.comp_def, Var.isDropped_renamed]
    refine .ite ?_ (.seq (uniform_inEquation e _ (uniform_lowerEquation injective uniform e))
      fun _ => ih _)
    refine .ite (.bind (uniform_inEquation e _ (.refuse rfl)) fun _ _ (impossible : False) =>
      impossible.elim) (ih _)

theorem uniform_addAlias (state : Nat) (v : Var) : Uniform σ (titles :: others) Eq
    (addAlias state v) (addAlias state (v.renamed σ)) := by
  refine .seq (Uniform.lookup injective v) fun _ => .seq (Uniform.addArray injective _ _ _) fun _ =>
    .seq (Uniform.array _) fun _ => ?_
  exact .seq (Uniform.changeGraph fun _ _ kin => kin.addNode _ _) fun _ => .pure rfl

theorem uniform_addAliases (state : Nat) (known : List (Var × String)) (atoms : List Atom) :
    Uniform σ (titles :: others) (fun found found' => found' =
        (found.1, found.2.map fun entry => (entry.1.renamed σ, entry.2)))
      (addAliases state known atoms)
        (addAliases state (known.map fun entry => (entry.1.renamed σ, entry.2))
          (atoms.map (Atom.renamed σ))) := by
  induction atoms generalizing known with
  | nil => exact .pure rfl
  | cons atom rest ih =>
    cases atom with
    | literal s => exact .refuse rfl
    | var v =>
      -- Variables are compared by their numbers, so the same ones have an alias already.
      have seen : (known.map fun entry => (entry.1.renamed σ, entry.2)).find?
        (fun entry => entry.1.id = (v.renamed σ).id) =
          (known.find? fun entry => entry.1.id = v.id).map fun entry => (entry.1.renamed σ,
            entry.2) := by
        simp only [find?_map, Function.comp_def, Var.renamed, injective.eq_iff]
      simp only [map_cons, Atom.renamed, addAliases, seen]
      cases known.find? fun entry => entry.1.id = v.id with
      | some entry =>
        refine .bind (ih known) fun found found' same => ?_
        subst same
        exact .pure rfl
      | none =>
        refine .seq (uniform_addAlias injective state v) fun name => ?_
        have later := ih (known ++ [(v, name)])
        rw [map_append] at later
        refine .bind later fun found found' same => ?_
        subst same
        exact .pure rfl

theorem uniform_aliasOutputs (f : Lambda) : Uniform σ (titles :: others) Eq (aliasOutputs f)
    (aliasOutputs (f.renamed σ)) := by
  unfold aliasOutputs
  rw [Lambda.renamed_outputs]
  refine .bind Uniform.draft fun d d' kin => ?_
  obtain ⟨-, rfl⟩ := kin
  refine .guarded rfl (.bind (uniform_addAliases injective d.start [] f.outputs)
    fun found found' same => ?_)
  subst same
  exact .seq (.forM fun entry _ => Uniform.unmapVariable injective entry.1) fun _ => .pure rfl

theorem uniform_lowerBody (uniform : kit.Uniform σ) (f : Lambda) : Uniform σ (titles :: others) Eq
    (lowerBody kit f) (lowerBody kit (f.renamed σ)) := by
  have entered : Uniform σ (titles :: others) Eq (enter f) (enter (f.renamed σ)) := by
    unfold enter
    rw [Lambda.renamed_inputs]
    refine .seq (uniform_createConstants injective f) fun _ => .seq
      (Uniform.createVars injective _ _) fun inputs => .bind Uniform.draft fun d d' kin => ?_
    obtain ⟨title, rfl⟩ := kin
    exact Uniform.setDraft ⟨title, rfl⟩
  unfold lowerBody
  rw [Lambda.renamed_equations, Lambda.renamed_outputs]
  refine .seq entered fun _ => .seq (uniform_lowerEquations injective uniform 0 f.equations)
    fun count => ?_
  cases count with
  | zero => exact uniform_aliasOutputs injective f
  | succ count => exact .seq (Uniform.resolve injective _ _) fun _ => .pure rfl

end Bodies

end Lowering

namespace Builder.Kin

variable {σ : Nat → Nat} {titles : List (String × String)} {b b' : Builder}

theorem push (kin : Builder.Kin σ titles b b') (name? : Option String) :
    (∃ failure, Builder.push name? b = (.error failure, b) ∧
      Builder.push name? b' = (.error failure, b')) ∨
      ∃ both after after', (∀ name ∈ name?, both = (name, name)) ∧
      Builder.push name? b = (.ok (), after) ∧ Builder.push name? b' = (.ok (), after') ∧
        Builder.Kin σ (both :: titles) after after' := by
  cases name? with
  | none =>
    let title (number : Nat) := "unnamed_SDFG_" ++ number.repr
    exact .inr ⟨(title b.unnamed, title b'.unnamed), _, _, by simp, rfl, rfl,
      .cons ⟨rfl, rfl⟩ kin.drafts, kin.mapped⟩
  | some name =>
    by_cases valid : Naming.isIdentifier name = true
    · refine .inr ⟨(name, name), { b with drafts := Draft.new name :: b.drafts },
        { b' with drafts := Draft.new name :: b'.drafts }, by simp, ?_, ?_,
        .cons ⟨rfl, rfl⟩ kin.drafts, kin.mapped⟩ <;> simp only [Builder.push, valid, if_true] <;>
        rfl
    · exact .inl
        ⟨.error
          (.naming
            s!"'{name}' is not a valid SDFG name"),
            by simp only [Builder.push, valid]; rfl, by simp only [Builder.push, valid]; rfl⟩

theorem pop {both : String × String} (kin : Builder.Kin σ (both :: titles) b b') :
    ∃ d d' after after', Builder.pop b = (.ok (some d), after) ∧
    Builder.pop b' = (.ok (some d'), after') ∧ d.Kin σ both d' ∧
    Builder.Kin σ titles after after' := by
  obtain ⟨drafts, mapped, unnamed⟩ := b
  obtain ⟨drafts', mapped', unnamed'⟩ := b'
  obtain ⟨kin, same⟩ := kin
  cases kin with
  | @cons _ _ d d' rest rest' kin below =>
    refine ⟨d, d', ⟨rest, if rest.isEmpty then 0 else mapped, unnamed⟩,
      ⟨rest', if rest'.isEmpty then 0 else mapped', unnamed'⟩, ?_⟩
    cases below with
    | nil => exact ⟨rfl, rfl, kin, .nil, rfl⟩
    | cons next further => exact ⟨rfl, rfl, kin, .cons next further, same⟩

end Builder.Kin

namespace Lowering

variable {σ : Nat → Nat} {kit : Toolkit} {book : RuleBook}

theorem uniform_lowerWith (injective : Function.Injective σ) (uniform : kit.Uniform σ)
    (titles : List (String × String)) (f : Lambda) (name? : Option String) :
    Uniform σ titles (fun d d' => ∃ both, d.Kin σ both d' ∧ ∀ name ∈ name?, both = (name, name))
      (lowerWith kit f name?) (lowerWith kit (f.renamed σ) name?) := by
  rw [lowerWith_eq, lowerWith_eq, Lambda.renamed_effects]
  refine .ite (.refuse rfl) ?_
  intro b b' kin
  rw [bind_run, bind_run]
  rcases kin.push name? with ⟨failure, pushed, pushed'⟩ | ⟨both, after, after', titled, pushed,
    pushed', pushedKin⟩
  · rw [pushed, pushed']
    exact ⟨.fails rfl, kin⟩
  rw [pushed, pushed']
  -- Whatever the bodies end in, both drafts come off the stack.
  obtain ⟨alike, bodyKin⟩ := uniform_lowerBody injective uniform f after after' pushedKin
  simp only [inside, bind_run, attempt]
  generalize lowerBody kit f after = ran at alike bodyKin
  generalize lowerBody kit (f.renamed σ) after' = ran' at alike bodyKin
  obtain ⟨outcome, between⟩ := ran
  obtain ⟨outcome', between'⟩ := ran'
  obtain ⟨d, d', left, left', popped, popped', draftKin, leftKin⟩ := bodyKin.pop
  simp only [popped, popped']
  cases alike with
  | fails same => exact ⟨.fails same, leftKin⟩
  | gives same =>
    subst same
    obtain ⟨title, rfl⟩ := draftKin
    exact ⟨.gives ⟨both, ⟨title, rfl⟩, titled⟩, leftKin⟩

theorem uniform_toolkit (uniform : book.Uniform) (injective : Function.Injective σ) (fuel : Nat) :
    (toolkit book fuel).Uniform σ := by
  induction fuel with
  | zero => exact ⟨fun _ _ _ => .refuse rfl, fun known => by cases known⟩
  | succ fuel ih =>
    refine ⟨fun titles f name? => uniform_lowerWith injective ih titles f name?, ?_⟩
    intro primitive apply known titles others names outputs e state
    obtain ⟨rule, listed, rfl⟩ := Option.map_eq_some_iff.mp known
    exact uniform primitive rule listed σ injective _ ih titles others names outputs e state

theorem uniform_lower (uniform : book.Uniform) (injective : Function.Injective σ) (f : Lambda)
    (name? : Option String) :
    Uniform σ [] (fun d d' => ∃ both, d.Kin σ both d') (lower book f name?)
      (lower book (f.renamed σ) name?) := by
  have same : levels book (f.renamed σ) = levels book f := by
    simp only [levels, Lambda.depth_renamed]
  unfold lower
  rw [same]
  exact ((uniform_toolkit uniform injective _).lower [] f name?).imp fun _ _ ⟨both, kin, _⟩ =>
    ⟨both, kin⟩

theorem operations_blind (σ : Nat → Nat) : ∀ op ∈ operations, op.Blind σ := by
  intro op member
  simp only [operations, mem_append, mem_map, mem_cons, not_mem_nil, or_false] at member
  rcases member with (⟨_, -, rfl⟩ | ⟨_, -, rfl⟩) | rfl | rfl | rfl | rfl | rfl | rfl | rfl | rfl
  · exact Arithmetic.operation_blind σ _ _
  · exact Arithmetic.logical_blind σ _ _ _
  · exact Movement.broadcast_blind σ
  · exact Movement.convert_blind σ
  · exact .of_kernel σ rfl fun _ _ _ => rfl
  · exact Movement.devicePut_blind σ
  · exact Movement.iota_blind σ
  · exact .of_kernel σ rfl fun _ _ _ => rfl
  · exact Movement.slice_blind σ
  · exact Movement.squeeze_blind σ

end Lowering

theorem Rule.uniform_of_blind {rule : Rule} {apply : Apply} {nodes : Nodes}
    (same : ∀ kit, rule.apply kit = apply) (flat : Flat apply nodes)
    (blind : apply.Blind) : rule.Uniform := by
  intro σ _ kit _ titles others names outputs e state
  rw [same, blind]
  exact (flat names outputs e state).uniform

theorem RuleBook.uniform_builtin : RuleBook.Uniform .builtin := by
  intro primitive rule known
  rcases (builtin_listed known).2 with ⟨op, member, rfl⟩ | rfl | rfl | rfl | rfl | rfl | rfl
  · exact Rule.uniform_of_blind (fun _ => rfl) op.flat (Elementwise.apply_blind fun σ =>
      Lowering.operations_blind σ op member)
  · exact Rule.uniform_of_blind (fun _ => rfl) Movement.flat_concatenate Movement.concatenate_blind
  · exact Rule.uniform_of_blind (fun _ => rfl) Movement.flat_dynamicSlice
      Movement.dynamicSlice_blind
  · exact Rule.uniform_of_blind (fun _ => rfl) Movement.flat_reshape Movement.reshape_blind
  · exact Rule.uniform_of_blind (fun _ => rfl) Gather.flat Gather.apply_blind
  · exact fun σ _ kit uniform titles others names outputs e state => Nested.uniform_cond uniform
      names outputs e state
  · exact fun σ _ kit uniform titles others names outputs e state => Nested.uniform_call uniform
      names outputs e state

end TraceFlow
