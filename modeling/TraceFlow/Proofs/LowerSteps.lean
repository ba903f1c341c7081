import TraceFlow.Lowering.Rule
import TraceFlow.Proofs.Outcome

set_option autoImplicit false

namespace TraceFlow

open List

abbrev StepM (σ : Type) := ExceptT Failure (StateM σ)

def Gives {σ α : Type} (step : StepM σ α) (b : σ) (a : α) (b' : σ) : Prop :=
  step b = (.ok a, b')

section Gives

variable {σ α β : Type} {b b' : σ} {cause : Error}

theorem bind_run (step : StepM σ α) (next : α → StepM σ β) (b : σ) :
    (step >>= next) b = match step b with
      | (.ok a, between) => next a between
      | (.error failure, between) => (.error failure, between) := by
  change (ExceptT.bind step next : StateM σ _) b = _
  simp only [ExceptT.bind, ExceptT.mk, bind, StateT.bind, ExceptT.bindCont]
  rcases step b with ⟨_ | _, _⟩ <;> rfl

theorem get_run (b : σ) : (get : StepM σ σ) b = (.ok b, b) := rfl

theorem gives_bind {step : StepM σ α} {next : α → StepM σ β} {c : β} :
    Gives (step >>= next) b c b' ↔ ∃ a between, Gives step b a between ∧ Gives
      (next a) between c b' := by
  rw [Gives, bind_run]
  rcases given : step b with ⟨failure | a, between⟩
  · constructor
    · intro impossible
      cases impossible
    · rintro ⟨a, between', first, -⟩
      rw [Gives, given] at first
      cases first
  · constructor
    · intro rest
      exact ⟨a, between, given, rest⟩
    · rintro ⟨a', between', first, second⟩
      rw [Gives, given] at first
      cases first
      exact second

-- What a step gives is all that it gives.
theorem gives_iff {step : StepM σ α} {a a' : α} {last : σ} (ran : Gives step b a' last) :
    Gives step b a b' ↔ a = a' ∧ b' = last := by
  rw [Gives, show step b = _ from ran, Prod.mk.injEq, Except.ok.injEq, eq_comm, @eq_comm _ last]

theorem gives_then {step : StepM σ α} {next : α → StepM σ β} {a : α} {c : β} {between : σ}
    (ran : Gives step b a between) :
    Gives (step >>= next) b c b' ↔ Gives (next a) between c b' := by
  rw [Gives, bind_run, show step b = _ from ran]
  rfl

theorem gives_of_ends {step : StepM σ α} {a : α} (ends : (step b).1 = .ok a) :
    Gives step b a (step b).2 :=
  Prod.ext ends rfl

theorem ends_iff {step : StepM σ α} {a : α} : (step b).1 = .ok a ↔ ∃ b', Gives step b a b' :=
  ⟨fun ends => ⟨_, gives_of_ends ends⟩, fun ⟨_, given⟩ => congrArg Prod.fst given⟩

theorem gives_pure {a c : α} : Gives (pure a : StepM σ α) b c b' ↔ c = a ∧ b' = b :=
  gives_iff rfl

theorem Gives.bind {step : StepM σ α} {next : α → StepM σ β} {a : α} {c : β} {between : σ}
    (first : Gives step b a between) (second : Gives (next a) between c b') :
    Gives (step >>= next) b c b' :=
  (gives_then first).mpr second

theorem Gives.next {step : StepM σ PUnit} {next : PUnit → StepM σ β} {c : β} {between : σ}
    (first : Gives step b ⟨⟩ between) (second : Gives (next ⟨⟩) between c b') :
    Gives (step >>= next) b c b' :=
  first.bind second

theorem gives_refuse {a : α} : ¬ Gives (refuse cause : StepM σ α) b a b' := by
  intro given
  cases given

theorem gives_refuse_bind {next : α → StepM σ β} {c : β} :
    ¬ Gives (refuse cause >>= next) b c b' := by
  intro given
  cases given

theorem gives_throw {failure : Failure} {a : α} : ¬ Gives (throw failure : StepM σ α) b a b' := by
  intro given
  cases given

theorem gives_unless {c : Prop} [Decidable c] {next : PUnit → StepM σ α} {a : α} :
    Gives (if c then (refuse cause >>= next) else next ⟨⟩) b a b' ↔ ¬ c ∧ Gives
      (next ⟨⟩) b a b' := by
  by_cases fails : c
  · simp [fails, gives_refuse_bind]
  · simp [fails]

theorem gives_get {b'' : σ} : Gives (get : StepM σ σ) b b'' b' ↔ b'' = b ∧ b' = b :=
  gives_iff rfl

theorem gives_get_bind {next : σ → StepM σ α} {a : α} : Gives (get >>= next) b a b' ↔ Gives
    (next b) b a b' :=
  gives_then rfl

theorem gives_outcome {o : Outcome α} {a : α} : Gives (fun b => (o, b) : StepM σ α) b a b' ↔
    o = .ok a ∧ b' = b := by
  rw [Gives, Prod.mk.injEq, @eq_comm _ b]

theorem gives_outcome_bind {o : Outcome α} {next : α → StepM σ β} {c : β} :
    Gives ((fun b => (o, b) : StepM σ α) >>= next) b c b' ↔ ∃ a, o = .ok a ∧ Gives
      (next a) b c b' := by
  simp only [gives_bind, gives_outcome, and_assoc, exists_and_left, exists_eq_left]

theorem gives_set {next : σ} {u : PUnit} : Gives (set next : StepM σ PUnit) b u b' ↔ b' = next :=
  (gives_iff rfl).trans (and_iff_right rfl)

theorem gives_modify {change : σ → σ} {u : PUnit} : Gives (modify change : StepM σ PUnit) b u b' ↔
    b' = change b :=
  (gives_iff rfl).trans (and_iff_right rfl)

end Gives

section

variable {α β : Type} {b b' : Builder}

theorem gives_lift {o : Outcome α} {a : α} : Gives (Builder.lift o) b a b' ↔ o = .ok a ∧ b' = b :=
  gives_outcome

theorem gives_lift_bind {o : Outcome α} {next : α → LowerM β} {c : β} :
    Gives (Builder.lift o >>= next) b c b' ↔ ∃ a, o = .ok a ∧ Gives (next a) b c b' :=
  gives_outcome_bind

theorem gives_attempt {step : LowerM α} {o : Outcome α} : Gives (Builder.attempt step) b o b' ↔
    step b = (o, b') := by
  rw [Gives, Builder.attempt]
  rcases step b with ⟨outcome, between⟩
  constructor
  · intro given
    cases given
    rfl
  · intro given
    cases given
    rfl

end

def Draft.proposed (d : Draft) (mapped : Nat) (v : Var) (before : String) : String :=
  match d.nameOf? v, v.explicitName? with
  | some name, _ => name
  | none, some name => name
  | none, none =>
    Builder.freshFrom (fun name => d.graph.arrays.contains (before ++ name)) d.graph.arrays.size
      mapped

def Draft.withArray (d : Draft) (name : String) (array : Descriptor) : Draft :=
  { d with graph := { d.graph with arrays := d.graph.arrays.insert name array } }

def Draft.naming (d : Draft) (v : Var) (name : String) : Draft :=
  { d with names := (v.id, name) :: d.names }

def Draft.appended (d : Draft) (label : String) (guard? : Option Guard) (assignments : Dict Binding)
    (source : Nat) : Draft :=
  { d with
    graph := (d.graph.addState label).addEdge
      { source, target := d.graph.states.length, guard?, assignments }
    terminal := if source = d.terminal then d.graph.states.length else d.terminal }

namespace Builder

variable {u : Unit} {stack : List Draft} {b' : Builder}

section

variable {α : Type} {a : α} {d : Draft} {rest : List Draft} {mapped unnamed : Nat} {b' : Builder}
  {name before : String} {v : Var}

theorem gives_draft {d' : Draft} : Gives draft ⟨d :: rest, mapped, unnamed⟩ d' b' ↔ d' = d ∧
    b' = ⟨d :: rest, mapped, unnamed⟩ :=
  gives_iff rfl

theorem gives_draft_bind {next : Draft → LowerM α} :
    Gives (draft >>= next) ⟨d :: rest, mapped, unnamed⟩ a b' ↔ Gives
      (next d) ⟨d :: rest, mapped, unnamed⟩ a b' :=
  gives_then rfl

theorem gives_setDraft {d' : Draft} : Gives (setDraft d') ⟨d :: rest, mapped, unnamed⟩ u b' ↔
    b' = ⟨d' :: rest, mapped, unnamed⟩ :=
  gives_modify

theorem gives_graph {g : Graph} : Gives graph ⟨d :: rest, mapped, unnamed⟩ g b' ↔ g = d.graph ∧
    b' = ⟨d :: rest, mapped, unnamed⟩ :=
  gives_iff rfl

theorem gives_graph_bind {next : Graph → LowerM α} :
    Gives (graph >>= next) ⟨d :: rest, mapped, unnamed⟩ a b' ↔ Gives
      (next d.graph) ⟨d :: rest, mapped, unnamed⟩ a b' :=
  gives_then rfl

theorem gives_changeGraph {change : Graph → Outcome Graph} :
    Gives (changeGraph change) ⟨d :: rest, mapped, unnamed⟩ u b' ↔ ∃ g, change d.graph = .ok g ∧
      b' = ⟨{ d with graph := g } :: rest, mapped, unnamed⟩ := by
  rw [changeGraph, gives_draft_bind, gives_lift_bind]
  simp only [gives_setDraft]

theorem gives_changeGraph_bind {change : Graph → Outcome Graph} {next : Unit → LowerM α} :
    Gives (changeGraph change >>= next) ⟨d :: rest, mapped, unnamed⟩ a b' ↔
    ∃ g, change d.graph = .ok g ∧
      Gives (next ()) ⟨{ d with graph := g } :: rest, mapped, unnamed⟩ a b' := by
  rw [changeGraph, bind_assoc, gives_draft_bind, bind_assoc, gives_lift_bind]
  exact exists_congr fun g => and_congr_right fun _ => gives_then rfl

theorem gives_emit {state : Nat} {node : Node} :
    Gives (emit state node) ⟨d :: rest, mapped, unnamed⟩ u b' ↔
    ∃ g, d.graph.addNode state node = .ok g ∧
      b' = ⟨{ d with graph := g } :: rest, mapped, unnamed⟩ :=
  gives_changeGraph

theorem gives_array {found : Descriptor} :
    Gives (array name) ⟨d :: rest, mapped, unnamed⟩ found b' ↔
      d.graph.array? name = some found ∧ b' = ⟨d :: rest, mapped, unnamed⟩ := by
  rw [array, gives_graph_bind]
  cases d.graph.array? name with
  | none => simp [gives_refuse]
  | some known => simp [gives_pure, eq_comm]

theorem gives_proposal : Gives (proposal v before) ⟨d :: rest, mapped, unnamed⟩ name b' ↔
      name = d.proposed mapped v before ∧ b' = ⟨d :: rest, mapped, unnamed⟩ := by
  rw [proposal, gives_draft_bind, Draft.proposed]
  cases d.nameOf? v with
  | some known => exact gives_pure
  | none =>
    cases v.explicitName? with
    | some explicit => exact gives_pure
    | none => exact (gives_then rfl).trans gives_pure

theorem gives_mapVariable (unmapped : d.nameOf? v = none) :
    Gives (mapVariable v name) ⟨d :: rest, mapped, unnamed⟩ u b' ↔
      d.graph.arrays.contains name = true ∧ Naming.isReserved name = false ∧
        b' = ⟨d.naming v name :: rest, mapped + 1, unnamed⟩ := by
  rw [mapVariable, gives_draft_bind]
  simp only [unmapped, gives_unless, gives_modify, Bool.not_eq_true', Bool.not_eq_false,
    Bool.not_eq_true]
  rfl

theorem gives_checkProposal : Gives (checkProposal v name) ⟨d :: rest, mapped, unnamed⟩ u b' ↔
      (d.graph.arrays.contains name = false ∧ Naming.isIdentifier name = true ∧
        Naming.isReserved name = false) ∧ b' = ⟨d :: rest, mapped, unnamed⟩ := by
  rw [checkProposal, gives_graph_bind]
  simp only [gives_unless, Bool.not_eq_true', Bool.not_eq_false, Bool.not_eq_true, and_assoc]
  by_cases forbidden : Naming.isReserved name = true
  · simp [forbidden, gives_refuse]
  · simp [forbidden, gives_pure]

structure NewArray (d : Draft) (mapped : Nat) (v : Var) (before name : String)
    (array : Descriptor) : Prop where
  used : v.isDropped = false
  proposed : name = before ++ d.proposed mapped v before
  free : d.graph.arrays.contains name = false
  identifier : Naming.isIdentifier name = true
  allowed : Naming.isReserved name = false
  dense : Descriptor.dense (arrayShape v) v.elem = .ok array

theorem addArray_eq_ok {g g' : Graph} {array : Descriptor} : g.addArray name array = .ok g' ↔
      g.arrays.contains name = false ∧ g' = { g with arrays := g.arrays.insert name array } := by
  rw [Graph.addArray]
  by_cases taken : g.arrays.contains name = true <;> simp [taken, eq_comm, refuse]

theorem addConstant_eq_ok {g g' : Graph} {value : Tensor} : g.addConstant name value = .ok g' ↔
    ∃ array, Descriptor.dense value.shape value.elem = .ok array ∧ g.arrays.contains name = false ∧
      g' = { g with arrays := g.arrays.insert name array, constants :=
        g.constants.insert name value } := by
  simp only [Graph.addConstant, bind_eq_ok, Outcome.pure_eq, Except.ok.injEq, addArray_eq_ok]
  grind

theorem contains_withArray (name : String) (array : Descriptor) :
    (d.withArray name array).graph.arrays.contains name = true := by
  simp [Draft.withArray, Dict.contains]

theorem gives_addArray {record : Bool} (unmapped : record = true → d.nameOf? v = none) :
    Gives (addArray v before record) ⟨d :: rest, mapped, unnamed⟩ name b' ↔ ∃ array,
    NewArray d mapped v before name array ∧
      b' = if record then ⟨(d.withArray name array).naming v name :: rest, mapped + 1, unnamed⟩ else
      ⟨d.withArray name array :: rest, mapped, unnamed⟩ := by
  have recorded {array : Descriptor} {name : String} (holds : record = true) {b' : Builder} :=
    @gives_mapVariable () (d.withArray name array) rest mapped unnamed b' name v (unmapped holds)
  rw [addArray, gives_unless, gives_then (gives_proposal.mpr ⟨rfl, rfl⟩)]
  constructor
  · rintro ⟨used, given⟩
    obtain ⟨_, _, checked, given⟩ := gives_bind.mp given
    obtain ⟨⟨free, identifier, allowed⟩, rfl⟩ := gives_checkProposal.mp checked
    obtain ⟨array, dense, given⟩ := gives_lift_bind.mp given
    obtain ⟨g, changed, given⟩ := gives_changeGraph_bind.mp given
    obtain ⟨-, rfl⟩ := addArray_eq_ok.mp changed
    have new (name : String) (same : name = before ++ d.proposed mapped v before) :
      NewArray d mapped v before name array :=
      ⟨by simpa using used, same, same ▸ free, same ▸ identifier, same ▸ allowed, dense⟩
    cases record with
    | false =>
      obtain ⟨rfl, rfl⟩ := gives_pure.mp given
      exact ⟨array, new _ rfl, rfl⟩
    | true =>
      obtain ⟨outcome, between, tried, given⟩ := gives_bind.mp given
      rw [gives_attempt] at tried
      cases outcome with
      | ok _ =>
        obtain ⟨rfl, rfl⟩ := gives_pure.mp given
        obtain ⟨-, -, rfl⟩ := (recorded rfl).mp tried
        exact ⟨array, new _ rfl, rfl⟩
      | error failure =>
        obtain ⟨_, _, -, given⟩ := gives_bind.mp given
        obtain ⟨_, _, impossible, -⟩ := gives_bind.mp given
        exact absurd impossible gives_throw
  · rintro ⟨array, ⟨used, rfl, free, identifier, allowed, dense⟩, rfl⟩
    refine ⟨by simp [used], .next (gives_checkProposal.mpr ⟨⟨free, identifier, allowed⟩, rfl⟩)
      (gives_lift_bind.mpr ⟨array, dense, ?_⟩)⟩
    refine gives_changeGraph_bind.mpr ⟨_, addArray_eq_ok.mpr ⟨free, rfl⟩, ?_⟩
    cases record with
    | false => exact gives_pure.mpr ⟨rfl, rfl⟩
    | true =>
      exact .bind (gives_attempt.mpr ((recorded rfl).mpr ⟨contains_withArray _ array, allowed,
        rfl⟩)) (gives_pure.mpr ⟨rfl, rfl⟩)

theorem gives_lookup? {found : Option String} :
    Gives (lookup? v) ⟨d :: rest, mapped, unnamed⟩ found b' ↔
      d.nameOf? v = found ∧ (∀ name, found = some name → d.graph.arrays.contains name = true) ∧
        b' = ⟨d :: rest, mapped, unnamed⟩ := by
  rw [lookup?, gives_draft_bind]
  cases known : d.nameOf? v with
  | none =>
    simp only [gives_pure]
    grind
  | some name =>
    simp only [gives_unless, gives_pure]
    grind

theorem gives_lookup?_bind {next : Option String → LowerM α} :
    Gives (lookup? v >>= next) ⟨d :: rest, mapped, unnamed⟩ a b' ↔
      (∀ name, d.nameOf? v = some name → d.graph.arrays.contains name = true) ∧
        Gives (next (d.nameOf? v)) ⟨d :: rest, mapped, unnamed⟩ a b' := by
  simp only [gives_bind, gives_lookup?]
  grind

-- The array of an atom that needs none to be made.
def Resolved (d : Draft) (allowLiterals : Bool) : Atom → Option String → Prop
  | .var v, some name => d.nameOf? v = some name ∧ d.graph.arrays.contains name = true
  | .literal _, none => allowLiterals = true
  | _, _ => False

theorem gives_resolve_known {allowLiterals : Bool} {atoms : List Atom}
    {names : List (Option String)} :
    Gives (resolve { preventCreation := true, allowLiterals } atoms) ⟨d :: rest, mapped, unnamed⟩
      names b' ↔
      List.Forall₂ (Resolved d allowLiterals) atoms names ∧ b' = ⟨d :: rest, mapped, unnamed⟩ := by
  have each (atom : Atom) (name? : Option String) (b'' : Builder) :
      Gives (resolveAtom { preventCreation := true, allowLiterals } atom) ⟨d :: rest, mapped,
        unnamed⟩ name? b'' ↔
        Resolved d allowLiterals atom name? ∧ b'' = ⟨d :: rest, mapped, unnamed⟩ := by
    cases atom with
    | var v =>
      rw [resolveAtom, resolveVar, bind_assoc, gives_lookup?_bind]
      cases known : d.nameOf? v with
      | none => cases name? <;> simp [Resolved, known, gives_bind, gives_refuse]
      | some name =>
        cases name? <;> simp [Resolved, known, gives_pure]
        grind
    | literal s =>
      rw [resolveAtom]
      cases allowLiterals with
      | true =>
        simp only [if_true, gives_pure]
        cases name? <;> simp [Resolved]
      | false =>
        simp only [Bool.false_eq_true, if_false, gives_refuse, false_iff]
        cases name? <;> simp [Resolved]
  have all : Gives (resolveAll { preventCreation := true, allowLiterals } atoms) ⟨d :: rest, mapped,
    unnamed⟩ names b' ↔
      List.Forall₂ (Resolved d allowLiterals) atoms names ∧ b' = ⟨d :: rest, mapped, unnamed⟩ := by
    induction atoms generalizing names b' with
    | nil =>
      rw [resolveAll, gives_pure, forall₂_nil_left_iff]
    | cons atom others ih =>
      simp only [resolveAll, gives_bind, gives_pure, each]
      constructor
      · rintro ⟨name?, _, ⟨resolved, rfl⟩, names, _, given, rfl, rfl⟩
        obtain ⟨related, rfl⟩ := ih.mp given
        exact ⟨.cons resolved related, rfl⟩
      · rintro ⟨related, rfl⟩
        cases related with
        | cons resolved related =>
          exact ⟨_, _, ⟨resolved, rfl⟩, _, _, ih.mpr ⟨related, rfl⟩, rfl, rfl⟩
  rw [← all, resolve]
  rfl

theorem gives_append {label : String} {guard? : Option Guard} {assignments : Dict Binding}
    {after? : Option Nat} {id : Nat} :
    Gives (append (some label) guard? assignments after?) ⟨d :: rest, mapped, unnamed⟩ id b' ↔
      Naming.isIdentifier label = true ∧
      (∀ source, after? = some source → source < d.graph.states.length) ∧
        id = d.graph.states.length ∧
        b' = ⟨d.appended label guard? assignments (after?.getD d.terminal) :: rest, mapped,
          unnamed⟩ := by
  rw [append, gives_unless, gives_draft_bind, gives_unless, gives_then
    (a := ()) (gives_setDraft.mpr rfl), gives_pure]
  refine and_congr (by simp) (and_congr ?_ Iff.rfl)
  cases after? with
  | none => simp
  | some source => simp [Graph.hasState]

inductive Creates (before : String) : Draft → Nat → List Var → List String → Draft → Prop
  | nil (d : Draft) (mapped : Nat) : Creates before d mapped [] [] d
  | cons {d d' : Draft} {mapped : Nat} {v : Var} {vs : List Var} {name : String}
    {names : List String}
    {array : Descriptor} : d.nameOf? v = none → NewArray d mapped v before name array →
    Creates before ((d.withArray name array).naming v name) (mapped + 1) vs names d' →
    Creates before d mapped (v :: vs) (name :: names) d'

theorem gives_createVars {vs : List Var} {names : List String} :
    Gives (createVars vs before) ⟨d :: rest, mapped, unnamed⟩ names b' ↔
      ∃ d', Creates before d mapped vs names d' ∧
      b' = ⟨d' :: rest, mapped + vs.length, unnamed⟩ := by
  have all (names? : List (Option String)) :
      Gives (resolveAll { onlyCreation := true, record := true, before } (vs.map .var))
          ⟨d :: rest, mapped, unnamed⟩ names? b' ↔
        ∃ names d', names? = names.map some ∧ Creates before d mapped vs names d' ∧
          b' = ⟨d' :: rest, mapped + vs.length, unnamed⟩ := by
    induction vs generalizing d mapped names? b' with
    | nil =>
      simp only [map_nil, resolveAll, gives_pure]
      constructor
      · rintro ⟨rfl, rfl⟩
        exact ⟨[], d, rfl, .nil d mapped, rfl⟩
      · rintro ⟨names, d', rfl, ⟨⟩, rfl⟩
        exact ⟨rfl, rfl⟩
    | cons v vs ih =>
      rw [map_cons, resolveAll, resolveAtom, resolveVar, bind_assoc, bind_assoc, gives_lookup?_bind]
      cases unmapped : d.nameOf? v with
      | some name =>
        constructor
        · rintro ⟨-, given⟩
          obtain ⟨_, _, given, -⟩ := gives_bind.mp given
          obtain ⟨_, _, impossible, -⟩ := gives_bind.mp given
          exact absurd impossible gives_refuse
        · rintro ⟨_, _, -, creates, -⟩
          cases creates with
          | cons free =>
            rw [unmapped] at free
            cases free
      | none =>
        have longer : mapped + (v :: vs).length = mapped + 1 + vs.length := by
          rw [length_cons, Nat.add_right_comm, Nat.add_assoc]
        simp only [Bool.false_eq_true, if_false, pure_bind, gives_bind,
          gives_addArray fun _ => unmapped, gives_pure, longer]
        constructor
        · rintro ⟨-, name, _, ⟨array, made, rfl⟩, names?, _, others, rfl, rfl⟩
          obtain ⟨names, d', rfl, creates, rfl⟩ := (ih names?).mp others
          exact ⟨name :: names, d', rfl, .cons unmapped made creates, rfl⟩
        · rintro ⟨_, d', rfl, creates, rfl⟩
          cases creates with
          | @cons _ _ _ _ _ name names array _ made creates =>
            exact ⟨by simp, name, _, ⟨array, made, rfl⟩, names.map some, _,
              (ih _).mpr ⟨names, d', rfl, creates, rfl⟩, rfl, rfl⟩
  have given : Gives (createVars vs before) ⟨d :: rest, mapped, unnamed⟩ names b' ↔ ∃ names?,
      Gives (resolveAll { onlyCreation := true, record := true, before } (vs.map .var))
        ⟨d :: rest, mapped, unnamed⟩ names? b' ∧ names = names?.filterMap id := by
    simp only [createVars, gives_bind, gives_pure, resolve]
    constructor
    · rintro ⟨names?, _, given, rfl, rfl⟩
      exact ⟨names?, given, rfl⟩
    · rintro ⟨names?, given, rfl⟩
      exact ⟨names?, _, given, rfl, rfl⟩
  rw [given]
  simp only [all]
  constructor
  · rintro ⟨_, ⟨names, d', rfl, creates, rfl⟩, rfl⟩
    exact ⟨d', by simpa using creates, rfl⟩
  · rintro ⟨d', creates, rfl⟩
    exact ⟨names.map some, ⟨names, d', rfl, creates, rfl⟩, by simp⟩

end

-- The name a new draft gets, and the number of unnamed graphs from then on.
def Titles (name? : Option String) (unnamed : Nat) (name : String) (unnamed' : Nat) : Prop :=
  match name? with
  | some given => name = given ∧ Naming.isIdentifier given = true ∧ unnamed' = unnamed
  | none => name = "unnamed_SDFG_" ++ unnamed.repr ∧ unnamed' = unnamed + 1

theorem gives_push {mapped unnamed : Nat} {name? : Option String} :
    Gives (push name?) ⟨stack, mapped, unnamed⟩ u b' ↔
      ∃ name unnamed', Titles name? unnamed name unnamed' ∧
      b' = ⟨Draft.new name :: stack, mapped, unnamed'⟩ := by
  unfold push
  cases name? with
  | some given =>
    simp only [Titles]
    by_cases valid : Naming.isIdentifier given = true
    · simp only [valid, if_true]
      rw [pure_bind, gives_modify]
      simp
    · simp [valid, gives_bind, gives_refuse]
  | none =>
    simp only [Titles]
    refine ((gives_then rfl).trans gives_modify).trans ?_
    simp

theorem gives_pop {mapped unnamed : Nat} {d? : Option Draft} :
    Gives pop ⟨stack, mapped, unnamed⟩ d? b' ↔ match stack with
      | [] => d? = none ∧ b' = ⟨[], mapped, unnamed⟩
      | d :: rest => d? = some d ∧ b' = ⟨rest, if rest.isEmpty then 0 else mapped, unnamed⟩ := by
  rcases stack with _ | ⟨d, _ | ⟨d', rest⟩⟩
  · exact gives_iff rfl
  · exact gives_iff rfl
  · exact gives_iff rfl

end Builder

end TraceFlow
