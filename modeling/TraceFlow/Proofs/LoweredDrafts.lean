import TraceFlow.Proofs.Blocks

set_option autoImplicit false

namespace TraceFlow

open Builder Lowering List

variable {name? : Option String} {child : Draft}

def Equation.label (e : Equation) (outputs : List String) : String :=
  e.primitive ++ "_" ++ "_".intercalate outputs

structure PlacesEquation (lower : Lambda → Option String → LowerM Draft) (d : Draft) (mapped : Nat)
    (e : Equation)
    (names : List (Option String)) (outputs : List String) (opened : Draft) (g : Graph)
    (block : Block) : Prop where
  pure : e.effectful = false
  resolved : List.Forall₂ (Resolved d true) e.inputs names
  creates : Creates "" d mapped e.outputs outputs opened
  labelled : Naming.isIdentifier (e.label outputs) = true
  fills : Fills lower names outputs e (e.label outputs) opened.graph g block

structure LowersEquation (lower : Lambda → Option String → LowerM Draft) (d : Draft) (mapped : Nat)
    (e : Equation)
    (names : List (Option String)) (outputs : List String) (opened : Draft) (g : Graph)
    (block : Block) : Prop
    extends PlacesEquation lower d mapped e names outputs opened g block where
  checked : (({ opened with graph := g } : Draft).followedBy block).check = .ok ()

inductive LowersAll (lower : Lambda → Option String → LowerM Draft) : Draft → Nat → List Equation →
    Nat → Draft → Prop
  | nil (d : Draft) (mapped : Nat) : LowersAll lower d mapped [] 0 d
  | dropped {d d' : Draft} {mapped count : Nat} {e : Equation} {rest : List Equation} :
    e.outputs.any Var.isDropped = true →
    e.outputs.all Var.isDropped = true → LowersAll lower d mapped rest count d' →
    LowersAll lower d mapped (e :: rest) count d'
  | cons {d opened d' : Draft} {mapped mapped' count : Nat} {e : Equation} {rest : List Equation}
    {names : List (Option String)}
    {outputs : List String} {g : Graph} {block : Block} : e.outputs.any Var.isDropped = false →
    LowersEquation lower d mapped e names outputs opened g block →
    LowersAll lower (({ opened with graph := g } : Draft).followedBy block) mapped' rest count d' →
    LowersAll lower d mapped (e :: rest) (count + 1) d'

section

variable {d : Draft} {rest : List Draft} {mapped unnamed : Nat} {b' : Builder}

variable {state fuel : Nat} {reported? : Option Nat} {u : Unit} {e : Equation} {f : Lambda}

theorem gives_settle {primitive : String}
    (consistent : reported? = none ∧ d.terminal = state ∨ reported? = some d.terminal) :
    Gives (settle primitive state reported?) ⟨d :: rest, mapped, unnamed⟩ u b' ↔
      d.check = .ok () ∧ b' = ⟨d :: rest, mapped, unnamed⟩ := by
  have checks : Gives (draft >>= fun d => lift d.check) ⟨d :: rest, mapped, unnamed⟩ u b' ↔
      d.check = .ok () ∧ b' = ⟨d :: rest, mapped, unnamed⟩ := by
    rw [gives_draft_bind, gives_lift]
  rw [← checks, settle, gives_draft_bind]
  rcases consistent with ⟨rfl, rfl⟩ | rfl
  · exact gives_unless.trans (and_iff_right (by simp))
  · exact gives_then (a := ()) (gives_setDraft.mpr rfl)

theorem gives_inEquation {α : Type} {step : LowerM α} {b : Builder} {a : α} :
    Gives (inEquation e step) b a b' ↔ Gives step b a b' := by
  rw [Gives, Gives, inEquation]
  rcases step b with ⟨failure | value, after⟩
  · constructor
    · intro impossible
      cases impossible
    · intro impossible
      cases impossible
  · rfl

def inner (fuel : Nat) : Lambda → Option String → LowerM Draft :=
  (toolkit .builtin (fuel - 1)).lower

def Lowering.place (kit : Toolkit) (e : Equation) : LowerM (Nat × Option Nat) := do
  if e.effectful then refuse (.unsupported "equation has side effects")
  let inputs ← resolve { preventCreation := true, allowLiterals := true } e.inputs
  let outputs ← createVars e.outputs ""
  match kit.rule? e.primitive with
  | none => refuse (.unsupported s!"no translator known to handle '{e.primitive}'")
  | some apply =>
    let state ← append (some (e.label outputs)) none {} none
    let reported? ← apply inputs outputs e state
    return (state, reported?)

theorem refuse_bind {α β : Type} (cause : Error) (next : α → LowerM β) :
    (refuse cause : LowerM α) >>= next = refuse cause := rfl

theorem lowerEquation_eq (kit : Toolkit) (e : Equation) : lowerEquation kit e = place kit e >>=
    fun placed => settle e.primitive placed.1 placed.2 := by
  unfold lowerEquation place
  cases e.effectful with
  | true => rfl
  | false =>
    cases kit.rule? e.primitive with
    | none => simp [refuse_bind]
    | some apply => simp [Equation.label]

theorem gives_place (steady : Steady (inner fuel))
    (given : Gives (place (toolkit .builtin fuel) e) ⟨d :: rest, mapped, unnamed⟩ (state, reported?)
      b') : ∃ names outputs opened g block mapped' unnamed', PlacesEquation
      (inner fuel) d mapped e names outputs opened g block ∧
      (reported? = none ∧ (({ opened with graph := g } : Draft).followedBy block).terminal = state ∨
        reported? = some (({ opened with graph := g } : Draft).followedBy block).terminal) ∧
      b' = ⟨({ opened with graph := g } : Draft).followedBy block :: rest, mapped', unnamed'⟩ := by
  unfold place at given
  obtain ⟨pure, given⟩ := gives_unless.mp given
  obtain ⟨names, _, found, given⟩ := gives_bind.mp given
  obtain ⟨resolved, rfl⟩ := gives_resolve_known.mp found
  obtain ⟨outputs, _, created, given⟩ := gives_bind.mp given
  obtain ⟨opened, creates, rfl⟩ := gives_createVars.mp created
  split at given
  · exact absurd given gives_refuse
  next apply known =>
    obtain ⟨state', _, appended, given⟩ := gives_bind.mp given
    obtain ⟨labelled, rfl, rfl⟩ := gives_append_opened.mp appended
    obtain ⟨_, _, applied, given⟩ := gives_bind.mp given
    obtain ⟨same, rfl⟩ := gives_pure.mp given
    cases same
    obtain _ | fuel := fuel
    · cases known
    obtain ⟨rule, listed, rfl⟩ := Option.map_eq_some_iff.mp known
    rcases builtin_cases listed with ⟨primitive, cond⟩ | ⟨primitive, call⟩ | ⟨nodes, primitive,
      flat⟩
    · rw [cond] at applied
      obtain ⟨name?, others, atom, atoms, branches, inputs, g, selector, nodes, mapped', unnamed',
        operands, atomic, kind, listed, promotes,
        selects, calls, some, reported, rfl⟩ := gives_cond steady applied
      exact ⟨names, outputs, opened, _, _, mapped', unnamed',
        ⟨by simpa using pure, resolved, creates, labelled,
        .switch primitive operands atomic kind listed promotes selects calls some⟩, .inr reported,
        rfl⟩
    · rw [call] at applied
      obtain ⟨none, f, name, inputs, node, mapped', unnamed', known, callee, calls, rfl⟩ :=
        gives_call steady applied
      exact ⟨names, outputs, opened, opened.graph, _, mapped', unnamed',
        ⟨by simpa using pure, resolved, creates, labelled,
        .call primitive known callee calls⟩, .inl ⟨none, rfl⟩, rfl⟩
    · obtain ⟨none, emitted, noded, rfl⟩ := (gives_flat (flat _)).mp applied
      exact ⟨names, outputs, opened, opened.graph, _, _, _, ⟨by simpa using pure, resolved, creates,
        labelled,
        .flat primitive noded⟩, .inl ⟨none, rfl⟩, rfl⟩

theorem gives_lowerEquation (steady : Steady (inner fuel))
    (given : Gives (lowerEquation (toolkit .builtin fuel) e) ⟨d :: rest, mapped, unnamed⟩ u b') :
    ∃ names outputs opened g block mapped' unnamed', LowersEquation
      (inner fuel) d mapped e names outputs opened g block ∧
      b' = ⟨({ opened with graph := g } : Draft).followedBy block :: rest, mapped', unnamed'⟩ := by
  rw [lowerEquation_eq] at given
  obtain ⟨⟨state, reported?⟩, _, placed, settled⟩ := gives_bind.mp given
  obtain ⟨names, outputs, opened, g, block, mapped', unnamed', places, consistent, rfl⟩ :=
    gives_place steady placed
  obtain ⟨checked, rfl⟩ := (gives_settle consistent).mp settled
  exact ⟨names, outputs, opened, g, block, mapped', unnamed', ⟨places, checked⟩, rfl⟩

theorem gives_lowerEquations (steady : Steady (inner fuel)) {equations : List Equation}
    {done total : Nat} (given : Gives (lowerEquations (toolkit .builtin fuel) done equations)
      ⟨d :: rest, mapped, unnamed⟩ total b') :
    ∃ count d' mapped' unnamed', LowersAll (inner fuel) d mapped equations count d' ∧
    total = done + count ∧ b' = ⟨d' :: rest, mapped', unnamed'⟩ := by
  induction equations generalizing d mapped unnamed done with
  | nil =>
    obtain ⟨rfl, rfl⟩ := gives_pure.mp given
    exact ⟨0, d, mapped, unnamed, .nil d mapped, rfl, rfl⟩
  | cons e others ih =>
    rw [lowerEquations] at given
    split at given
    next some =>
      dsimp only at given
      split at given
      · obtain ⟨_, _, impossible, -⟩ := gives_bind.mp given
        exact absurd (gives_inEquation.mp impossible) gives_refuse
      next all =>
        obtain ⟨count, d', mapped', unnamed', lowered, rfl, rfl⟩ := ih given
        exact ⟨count, d', mapped', unnamed', .dropped some (by simpa using all) lowered, rfl, rfl⟩
    next none =>
      obtain ⟨_, _, equation, given⟩ := gives_bind.mp given
      obtain ⟨names, outputs, opened, g, block, mapped₁, unnamed₁, lowered, rfl⟩ :=
        gives_lowerEquation steady (gives_inEquation.mp equation)
      obtain ⟨count, d', mapped', unnamed', all, rfl, rfl⟩ := ih given
      exact ⟨count + 1, d', mapped', unnamed', .cons (by simpa using none) lowered
        all, by omega, rfl⟩

theorem bindConstant_eq_ok {g g' : Graph} {name : String} {value : Tensor}
    (bound : g.bindConstant name value = .ok g') :
    ∃ array fixed, g.arrays.get? name = some array ∧ Graph.fits array value = .ok true ∧
      value.reshape array.shape = .ok fixed ∧
      g' = { g with constants := g.constants.insert name fixed } := by
  unfold Graph.bindConstant at bound
  split at bound
  · cases bound
  next array known =>
    obtain ⟨fitting, fits, bound⟩ := bind_eq_ok.mp bound
    obtain ⟨whole, bound⟩ := unlessShown_eq_ok.mp bound
    obtain rfl : fitting = true := by simpa using whole
    obtain ⟨fixed, reshaped, bound⟩ := bind_eq_ok.mp bound
    cases bound
    exact ⟨array, fixed, known, fits, reshaped, rfl⟩

def bindAll (g : Graph) : List (String × Tensor) → Outcome Graph
  | [] => .ok g
  | (name, value) :: rest => do bindAll (← g.bindConstant name value) rest

theorem gives_bindConstants {pairs : List (String × Tensor)} :
    Gives (bindConstants pairs) ⟨d :: rest, mapped, unnamed⟩ u b' ↔
      ∃ g, bindAll d.graph pairs = .ok g ∧
      b' = ⟨{ d with graph := g } :: rest, mapped, unnamed⟩ := by
  induction pairs generalizing d with
  | nil =>
    rw [bindConstants, gives_pure]
    simp [bindAll]
  | cons pair others ih =>
    simp only [bindConstants, bindAll, gives_changeGraph_bind, ih, bind_eq_ok]
    constructor
    · rintro ⟨g, bound, g', bounds, rfl⟩
      exact ⟨g', ⟨g, bound, bounds⟩, rfl⟩
    · rintro ⟨g', ⟨g, bound, bounds⟩, rfl⟩
      exact ⟨g, bound, g', bounds, rfl⟩

inductive Constants (f : Lambda) (d : Draft) (mapped : Nat) : Draft → Nat → Prop
  | none : f.consts.isEmpty = true → Constants f d mapped d mapped
  | some {names : List String} {d' : Draft} {g : Graph} : f.consts.isEmpty = false →
    Creates constantMark d mapped f.constVars names d' → bindAll d'.graph (names.zip f.consts) =
    .ok g →
    Constants f d mapped { d' with graph := g } (mapped + f.constVars.length)

theorem gives_createConstants : Gives (createConstants f) ⟨d :: rest, mapped, unnamed⟩ u b' ↔
      ∃ d' mapped', Constants f d mapped d' mapped' ∧ b' = ⟨d' :: rest, mapped', unnamed⟩ := by
  rw [createConstants]
  constructor
  · intro given
    split at given
    next nonempty =>
      obtain ⟨names, _, created, given⟩ := gives_bind.mp given
      obtain ⟨d', creates, rfl⟩ := gives_createVars.mp created
      obtain ⟨g, bound, rfl⟩ := gives_bindConstants.mp given
      exact ⟨_, _, .some (by simpa using nonempty) creates bound, rfl⟩
    next empty =>
      obtain ⟨-, rfl⟩ := gives_pure.mp given
      exact ⟨d, mapped, .none (by simpa using empty), rfl⟩
  · rintro ⟨_, _, constants, rfl⟩
    cases constants with
    | none empty =>
      rw [if_neg (by simp [empty])]
      exact gives_pure.mpr ⟨rfl, rfl⟩
    | some nonempty creates bound =>
      rw [if_pos (by simp [nonempty])]
      exact .bind (gives_createVars.mpr ⟨_, creates, rfl⟩) (gives_bindConstants.mpr ⟨_, bound, rfl⟩)

-- Copies of variables in arrays of their own, one for each variable that is met.
inductive Aliases (state mapped : Nat) : Draft → List (Var × String) → List Atom → List String →
    Draft → List (Var × String) → Prop
  | nil (d : Draft) (known : List (Var × String)) : Aliases state mapped d known [] [] d known
  | repeated {d d' : Draft} {known known' : List (Var × String)} {v w : Var} {name : String}
    {rest : List Atom} {names : List String} :
    known.find? (fun entry => entry.1.id = v.id) = some (w, name) →
    Aliases state mapped d known rest names d' known' →
    Aliases state mapped d known (.var v :: rest) (name :: names) d' known'
  | fresh {d d' : Draft} {known known' : List (Var × String)} {v : Var} {name copy : String}
    {array found : Descriptor} {g : Graph}
    {rest : List Atom} {names : List String} :
    known.find? (fun entry => entry.1.id = v.id) = none → d.nameOf? v = some name →
    d.graph.arrays.contains name = true →
    NewArray d mapped v aliasMark copy array → (d.withArray copy array).graph.array? name =
    some found →
    (d.withArray copy array).graph.addNode state (.copy (.full name found) (.full copy found)) =
    .ok g →
    Aliases state mapped { d with graph := g } (known ++ [(v, copy)]) rest names d' known' →
    Aliases state mapped d known (.var v :: rest) (copy :: names) d' known'

theorem gives_addAliases {known known' : List (Var × String)} {atoms : List Atom}
    {names : List String}
    (given : Gives (addAliases state known atoms) ⟨d :: rest, mapped, unnamed⟩ (names, known') b') :
    ∃ d', Aliases state mapped d known atoms names d' known' ∧
    b' = ⟨d' :: rest, mapped, unnamed⟩ := by
  induction atoms generalizing d known known' names b' with
  | nil =>
    obtain ⟨same, rfl⟩ := gives_pure.mp given
    cases same
    exact ⟨d, .nil d _, rfl⟩
  | cons atom others ih =>
    cases atom with
    | literal s => exact absurd given gives_refuse
    | var v =>
      rw [addAliases] at given
      split at given
      next w name found =>
        obtain ⟨⟨later, known''⟩, _, aliased, given⟩ := gives_bind.mp given
        obtain ⟨d', aliases, rfl⟩ := ih aliased
        obtain ⟨same, rfl⟩ := gives_pure.mp given
        cases same
        exact ⟨d', .repeated found aliases, rfl⟩
      next unseen =>
        obtain ⟨copy, _, aliased, given⟩ := gives_bind.mp given
        obtain ⟨name, _, found, aliased⟩ := gives_bind.mp aliased
        obtain ⟨name?, _, looked, found⟩ := gives_bind.mp found
        obtain ⟨mapped, present, rfl⟩ := gives_lookup?.mp looked
        cases name? with
        | none => exact absurd found gives_refuse
        | some _ =>
          obtain ⟨rfl, rfl⟩ := gives_pure.mp found
          obtain ⟨copy', _, added, aliased⟩ := gives_bind.mp aliased
          obtain ⟨array, made, rfl⟩ := (gives_addArray (by simp)).mp added
          obtain ⟨descriptor, _, looked, aliased⟩ := gives_bind.mp aliased
          obtain ⟨described, rfl⟩ := gives_array.mp looked
          obtain ⟨g, noded, aliased⟩ := gives_changeGraph_bind.mp aliased
          obtain ⟨rfl, rfl⟩ := gives_pure.mp aliased
          obtain ⟨⟨later, known''⟩, _, aliased, given⟩ := gives_bind.mp given
          obtain ⟨d', aliases, rfl⟩ := ih aliased
          obtain ⟨same, rfl⟩ := gives_pure.mp given
          cases same
          exact ⟨d', .fresh unseen mapped (present _ rfl) made described noded aliases, rfl⟩

theorem gives_unmapAll {known : List (Var × String)}
    (given : Gives (known.forM fun entry => unmapVariable entry.1) ⟨d :: rest, mapped, unnamed⟩ u
      b') :
    ∃ names mapped', names.Sublist d.names ∧ b' = ⟨{ d with names } :: rest, mapped', unnamed⟩ := by
  induction known generalizing d mapped with
  | nil =>
    obtain ⟨-, rfl⟩ := gives_pure.mp given
    exact ⟨d.names, mapped, .refl _, rfl⟩
  | cons entry others ih =>
    obtain ⟨_, between, unmapped, given⟩ := gives_bind.mp given
    have first : ∃ names mapped', names.Sublist d.names ∧
      between = ⟨{ d with names } :: rest, mapped', unnamed⟩ := by
      replace unmapped := gives_draft_bind.mp unmapped
      split at unmapped
      · exact ⟨_, _, filter_sublist, gives_modify.mp unmapped⟩
      · obtain ⟨-, rfl⟩ := gives_pure.mp unmapped
        exact ⟨_, _, .refl _, rfl⟩
    obtain ⟨names, mapped₁, fewer, rfl⟩ := first
    obtain ⟨names', mapped', fewer', rfl⟩ := ih given
    exact ⟨names', mapped', fewer'.trans fewer, rfl⟩

theorem gives_enter : Gives (enter f) ⟨d :: rest, mapped, unnamed⟩ u b' ↔
    ∃ d₁ d₂ mapped₁ inputs, Constants f d mapped d₁ mapped₁ ∧
    Creates "" d₁ mapped₁ f.inputs inputs d₂ ∧
      b' = ⟨{ d₂ with inputs? := some inputs } :: rest, mapped₁ + f.inputs.length, unnamed⟩ := by
  unfold enter
  constructor
  · intro given
    obtain ⟨_, _, created, given⟩ := gives_bind.mp given
    obtain ⟨d₁, mapped₁, constants, rfl⟩ := gives_createConstants.mp created
    obtain ⟨inputs, _, created, given⟩ := gives_bind.mp given
    obtain ⟨d₂, creates, rfl⟩ := gives_createVars.mp created
    exact ⟨d₁, d₂, mapped₁, inputs, constants, creates,
      gives_setDraft.mp (gives_draft_bind.mp given)⟩
  · rintro ⟨d₁, d₂, mapped₁, inputs, constants, creates, rfl⟩
    refine .next (gives_createConstants.mpr ⟨d₁, mapped₁, constants, rfl⟩)
      (.bind (gives_createVars.mpr ⟨d₂, creates, rfl⟩) ?_)
    exact gives_draft_bind.mpr (gives_setDraft.mpr rfl)

inductive LowersBody (lower : Lambda → Option String → LowerM Draft) (f : Lambda) (start : Draft)
    (mapped : Nat) : List String → Draft → Prop
  | equations {d₁ d₂ d : Draft} {mapped₁ mapped₂ count : Nat} {inputs : List String}
    {outputs : List (Option String)} :
    Constants f start mapped d₁ mapped₁ → Creates "" d₁ mapped₁ f.inputs inputs d₂ →
    LowersAll lower { d₂ with inputs? := some inputs } mapped₂ f.equations (count + 1) d →
    List.Forall₂ (Resolved d false) f.outputs outputs →
    LowersBody lower f start mapped (outputs.filterMap id) d
  | aliases {d₁ d₂ d₃ d : Draft} {mapped₁ mapped₂ mapped₃ : Nat} {inputs outputs : List String}
    {known : List (Var × String)}
    {names : List (Nat × String)} :
    Constants f start mapped d₁ mapped₁ → Creates "" d₁ mapped₁ f.inputs inputs d₂ →
    LowersAll lower { d₂ with inputs? := some inputs } mapped₂ f.equations 0 d₃ →
    d₃.terminal = d₃.start →
    Aliases d₃.start mapped₃ d₃ [] f.outputs outputs d known → names.Sublist d.names →
    LowersBody lower f start mapped outputs { d with names }

-- One step on the way from a draft with constants and inputs to the lowered function.
inductive LowersStep (lower : Lambda → Option String → LowerM Draft) (equations : List Equation) :
    Draft → Draft → Prop
  | places {d opened : Draft} {mapped : Nat} {e : Equation} {names : List (Option String)}
    {outputs : List String} {g : Graph} {block : Block} :
    e ∈ equations → PlacesEquation lower d mapped e names outputs opened g block →
    LowersStep lower equations d (({ opened with graph := g } : Draft).followedBy block)
  | copies {d : Draft} {state mapped : Nat} {v : Var} {name copy : String}
    {array found : Descriptor} : NewArray d mapped v aliasMark copy array →
    LowersStep lower equations d { d with graph := { (d.withArray copy array).graph with
      states := d.graph.states.modify state (·.add (.copy (.full name found) (.full copy found))) }
        }
  | unmaps {d : Draft} {names : List (Nat × String)} : names.Sublist d.names →
    LowersStep lower equations d { d with names }

section

variable {lower : Lambda → Option String → LowerM Draft} {equations all : List Equation}
  {P : Draft → Prop}

theorem LowersAll.preserves {d' : Draft} {count : Nat}
    (lowered : LowersAll lower d mapped equations count d') (among : ∀ e ∈ equations, e ∈ all)
    (step : ∀ {d d' : Draft}, LowersStep lower all d d' → P d → P d') (first : P d) : P d' := by
  induction lowered with
  | nil => exact first
  | dropped _ _ _ ih => exact ih (fun e member => among e (mem_cons_of_mem _ member)) first
  | cons _ equation _ ih =>
    exact ih (fun e member => among e (mem_cons_of_mem _ member))
      (step (.places (among _ mem_cons_self) equation.toPlacesEquation) first)

theorem Aliases.preserves {d' : Draft} {known known' : List (Var × String)} {atoms : List Atom}
    {names : List String} (aliases : Aliases state mapped d known atoms names d' known')
    (step : ∀ {d d' : Draft}, LowersStep lower all d d' → P d → P d') (first : P d) : P d' := by
  induction aliases with
  | nil => exact first
  | repeated _ _ ih => exact ih first
  | fresh _ _ _ made _ noded _ ih =>
    obtain ⟨-, rfl⟩ := addNode_eq_ok.mp noded
    exact ih (step (.copies made) first)

theorem LowersBody.preserves {start : Draft} {outputs : List String}
    (body : LowersBody lower f start mapped outputs d)
    (enter : ∀ {d₁ d₂ : Draft} {mapped₁ : Nat} {inputs : List String},
      Constants f start mapped d₁ mapped₁ →
      Creates "" d₁ mapped₁ f.inputs inputs d₂ → P { d₂ with inputs? := some inputs })
    (step : ∀ {d d' : Draft}, LowersStep lower f.equations d d' → P d → P d') : P d := by
  cases body with
  | equations constants creates all _ =>
    exact all.preserves (fun _ member => member) step (enter constants creates)
  | aliases constants creates all _ aliases fewer =>
    exact step (.unmaps fewer)
      (aliases.preserves step (all.preserves (fun _ member => member) step
        (enter constants creates)))

end

theorem gives_lowerBody (steady : Steady (inner fuel)) {outputs : List String}
    (given : Gives (lowerBody (toolkit .builtin fuel) f) ⟨d :: rest, mapped, unnamed⟩ outputs b') :
    ∃ d' mapped' unnamed', LowersBody (inner fuel) f d mapped outputs d' ∧
    b' = ⟨d' :: rest, mapped', unnamed'⟩ := by
  rw [lowerBody] at given
  obtain ⟨_, _, entered, given⟩ := gives_bind.mp given
  obtain ⟨d₁, d₂, mapped₁, inputs, constants, creates, rfl⟩ := gives_enter.mp entered
  obtain ⟨total, _, equations, given⟩ := gives_bind.mp given
  obtain ⟨count, d₃, mapped₃, unnamed₃, all, rfl, rfl⟩ := gives_lowerEquations steady equations
  rw [Nat.zero_add] at given
  cases count with
  | zero =>
    replace given := gives_draft_bind.mp given
    obtain ⟨still, given⟩ := gives_unless.mp given
    obtain ⟨⟨names, known⟩, _, aliased, given⟩ := gives_bind.mp given
    obtain ⟨d, aliases, rfl⟩ := gives_addAliases aliased
    obtain ⟨_, _, unmapped, given⟩ := gives_bind.mp given
    obtain ⟨names, mapped', fewer, rfl⟩ := gives_unmapAll unmapped
    obtain ⟨rfl, rfl⟩ := gives_pure.mp given
    exact ⟨_, _, _, .aliases constants creates all (by simpa using still) aliases fewer, rfl⟩
  | succ count =>
    obtain ⟨outputs, _, found, given⟩ := gives_bind.mp given
    obtain ⟨resolved, rfl⟩ := gives_resolve_known.mp found
    obtain ⟨rfl, rfl⟩ := gives_pure.mp given
    exact ⟨_, _, _, .equations constants creates all resolved, rfl⟩

end

theorem gives_lowerWith_iff {kit : Toolkit} {f : Lambda} {stack : List Draft} {mapped unnamed : Nat}
    {b' : Builder} :
    Gives (lowerWith kit f name?) ⟨stack, mapped, unnamed⟩ child b' ↔ f.effects.isEmpty = true ∧
      ∃ title unnamed₁ outputs d rest mapped' unnamed', Titles name? unnamed title unnamed₁ ∧
        Gives (lowerBody kit f) ⟨Draft.new title :: stack, mapped, unnamed₁⟩ outputs
          ⟨d :: rest, mapped', unnamed'⟩ ∧ child = { d with outputs? := some outputs } ∧
        b' = ⟨rest, if rest.isEmpty then 0 else mapped', unnamed'⟩ := by
  unfold lowerWith
  constructor
  · intro given
    obtain ⟨effects, given⟩ := gives_unless.mp given
    obtain ⟨_, _, pushed, given⟩ := gives_bind.mp given
    obtain ⟨title, unnamed₁, titles, rfl⟩ := gives_push.mp pushed
    obtain ⟨outcome, ⟨stack', mapped', unnamed'⟩, tried, given⟩ := gives_bind.mp given
    rw [gives_attempt] at tried
    obtain ⟨popped, _, taken, given⟩ := gives_bind.mp given
    have taken := gives_pop.mp taken
    cases stack' with
    | nil =>
      obtain ⟨rfl, -⟩ := taken
      exact absurd given gives_refuse
    | cons d rest =>
      obtain ⟨rfl, rfl⟩ := taken
      obtain ⟨outputs, rfl, given⟩ := gives_lift_bind.mp given
      obtain ⟨rfl, rfl⟩ := gives_pure.mp given
      exact ⟨by simpa using effects, title, unnamed₁, outputs, d, rest, mapped', unnamed', titles,
        tried, rfl, rfl⟩
  · rintro ⟨effects, title, unnamed₁, outputs, d, rest, mapped', unnamed', titles, lowered, rfl,
      rfl⟩
    refine gives_unless.mpr ⟨by simp [effects], .next (gives_push.mpr ⟨title, unnamed₁, titles,
      rfl⟩) ?_⟩
    refine .bind (gives_attempt.mpr lowered) (.bind (a := some d) (gives_pop.mpr ⟨rfl, rfl⟩) ?_)
    exact gives_lift_bind.mpr ⟨outputs, rfl, gives_pure.mpr ⟨rfl, rfl⟩⟩

theorem gives_lowerWith {fuel : Nat} (steady : Steady (inner fuel)) {f : Lambda}
    {stack : List Draft} {mapped unnamed : Nat}
    {b' : Builder} (given : Gives (lowerWith (toolkit .builtin fuel) f name?)
      ⟨stack, mapped, unnamed⟩ child b') :
    ∃ title outputs d mapped' unnamed', LowersBody (inner fuel) f
      (Draft.new title) mapped outputs d ∧
      child = { d with outputs? := some outputs } ∧ b' = ⟨stack, mapped', unnamed'⟩ := by
  obtain ⟨-, title, _, outputs, d, _, _, _, -, ran, rfl, rfl⟩ := gives_lowerWith_iff.mp given
  obtain ⟨d', _, _, body, same⟩ := gives_lowerBody steady ran
  cases same
  exact ⟨title, outputs, d, _, _, body, rfl, rfl⟩

theorem steady_toolkit (fuel : Nat) : Steady (toolkit .builtin fuel).lower := by
  induction fuel using Nat.strongRecOn with
  | ind fuel ih =>
    cases fuel with
    | zero => exact fun _ _ _ _ _ _ _ _ given => absurd given gives_refuse
    | succ fuel =>
      have steady : Steady (inner fuel) := ih (fuel - 1) (by omega)
      intro f name? d rest mapped unnamed child b' given
      obtain ⟨_, _, _, mapped', unnamed', -, -, rfl⟩ := gives_lowerWith steady given
      exact ⟨mapped', unnamed', rfl⟩

def Lowers (fuel : Nat) (f : Lambda) (child : Draft) : Prop :=
  ∃ title mapped outputs d, LowersBody (inner fuel) f (Draft.new title) mapped outputs d ∧
    child = { d with outputs? := some outputs }

theorem lowers_of_gives {fuel : Nat} {f : Lambda} {b b' : Builder}
    (given : Gives ((toolkit .builtin (fuel + 1)).lower f name?) b child b') :
    Lowers fuel f child := by
  obtain ⟨stack, mapped, unnamed⟩ := b
  obtain ⟨title, outputs, d, _, _, body, rfl, -⟩ :=
    gives_lowerWith (steady_toolkit (fuel - 1)) given
  exact ⟨title, mapped, outputs, d, body, rfl⟩

end TraceFlow
