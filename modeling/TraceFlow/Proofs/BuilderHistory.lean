import TraceFlow.Proofs.FlatRules

set_option autoImplicit false

namespace TraceFlow

open Builder Lowering

variable {c : Prop} {α : Type}

-- A step that sees and changes no more than the innermost draft and the number of mapped variables,
-- whether it succeeds or not.
def Confined {α : Type} (step : LowerM α) : Prop :=
  ∀ d rest mapped, ∃ outcome d' mapped', ∀ unnamed,
    step ⟨d :: rest, mapped, unnamed⟩ = (outcome, ⟨d' :: rest, mapped', unnamed⟩)

namespace Confined

variable {α β : Type}

variable {step : LowerM α}

theorem pure (a : α) : Confined (Pure.pure a : LowerM α) :=
  fun d _ mapped => ⟨.ok a, d, mapped, fun _ => rfl⟩

theorem throw (failure : Failure) : Confined (MonadExcept.throw failure : LowerM α) :=
  fun d _ mapped => ⟨.error failure, d, mapped, fun _ => rfl⟩

theorem refuse (cause : Error) : Confined (TraceFlow.refuse cause : LowerM α) :=
  throw _

theorem lift (o : Outcome α) : Confined (Builder.lift o) :=
  fun d _ mapped => ⟨o, d, mapped, fun _ => rfl⟩

theorem bind {next : α → LowerM β} (first : Confined step) (second : ∀ a, Confined (next a)) :
    Confined (step >>= next) := by
  intro d rest mapped
  obtain ⟨outcome, d₁, mapped₁, ran⟩ := first d rest mapped
  cases outcome with
  | error failure =>
    exact ⟨.error failure, d₁, mapped₁, fun unnamed => by rw [bind_run, ran]⟩
  | ok a =>
    obtain ⟨outcome, d₂, mapped₂, ran'⟩ := second a d₁ rest mapped₁
    exact ⟨outcome, d₂, mapped₂, fun unnamed => by rw [bind_run, ran]; exact ran' unnamed⟩

theorem ite [Decidable c] {other : LowerM α} (yes : Confined step) (no : Confined other) :
    Confined (if c then step else other) := by
  split
  · exact yes
  · exact no

theorem guarded [Decidable c] {cause : Error} {next : PUnit → LowerM α}
    (confined : Confined (next ⟨⟩)) :
    Confined (if c then (TraceFlow.refuse cause >>= next) else next ⟨⟩) :=
  .ite (.bind (.refuse cause) fun _ => confined) confined

theorem attempt (confined : Confined step) : Confined (Builder.attempt step) := by
  intro d rest mapped
  obtain ⟨outcome, d', mapped', ran⟩ := confined d rest mapped
  exact ⟨.ok outcome, d', mapped', fun unnamed => by simp only [Builder.attempt, ran]⟩

theorem forM {items : List α} {step : α → LowerM PUnit} (confined : ∀ a, Confined (step a)) :
    Confined (items.forM step) := by
  induction items with
  | nil => exact .pure _
  | cons item rest ih => exact .bind (confined item) fun _ => ih

theorem change (outcome : Draft → Nat → Outcome α) (draft : Draft → Nat → Draft)
    (count : Draft → Nat → Nat) (ran : ∀ d rest mapped unnamed, step ⟨d :: rest, mapped, unnamed⟩ =
      (outcome d mapped, ⟨draft d mapped :: rest, count d mapped, unnamed⟩)) : Confined step :=
  fun d rest mapped => ⟨outcome d mapped, draft d mapped, count d mapped, ran d rest mapped⟩

theorem draft : Confined Builder.draft :=
  change (fun d _ => .ok d) (fun d _ => d) (fun _ mapped => mapped) fun _ _ _ _ => rfl

theorem setDraft (d : Draft) : Confined (Builder.setDraft d) :=
  change (fun _ _ => .ok ()) (fun _ _ => d) (fun _ mapped => mapped) fun _ _ _ _ => rfl

theorem graph : Confined Builder.graph :=
  .bind draft fun _ => .pure _

theorem changeGraph (change : Graph → Outcome Graph) : Confined (Builder.changeGraph change) :=
  .bind draft fun _ => .bind (.lift _) fun _ => .setDraft _

theorem emit (state : Nat) (node : Node) : Confined (TraceFlow.emit state node) :=
  changeGraph _

theorem array (name : String) : Confined (Builder.array name) := by
  refine .bind graph fun g => ?_
  split
  · exact .pure _
  · exact .refuse _

theorem append (label? : Option String) (guard? : Option Guard) (assignments : Dict Binding)
    (after? : Option Nat) : Confined (Builder.append label? guard? assignments after?) := by
  unfold Builder.append
  cases label? with
  | none => exact .bind draft fun _ => .guarded (.bind (.setDraft _) fun _ => .pure _)
  | some label =>
    exact .guarded (.bind draft fun _ => .guarded (.bind (.setDraft _) fun _ => .pure _))

theorem proposal (v : Var) (before : String) : Confined (Builder.proposal v before) := by
  refine .bind draft fun d => ?_
  split
  · exact .pure _
  · exact .pure _
  · exact change (fun _ mapped => .ok _) (fun d _ => d) (fun _ mapped => mapped) fun _ _ _ _ => rfl

theorem mapVariable (v : Var) (name : String) : Confined (Builder.mapVariable v name) := by
  refine .bind draft fun d => ?_
  split
  · exact .ite (.refuse _) (.pure _)
  · refine .guarded (.guarded ?_)
    exact change (fun _ _ => .ok ()) (fun _ _ => { d with names := (v.id, name) :: d.names })
      (fun _ mapped => mapped + 1) fun _ _ _ _ => rfl

theorem unmapVariable (v : Var) : Confined (Builder.unmapVariable v) := by
  refine .bind draft fun d => .ite ?_ (.pure _)
  exact change (fun _ _ => .ok ())
    (fun _ _ => { d with names := d.names.filter fun entry => entry.1 ≠ v.id })
      (fun _ mapped => mapped - 1)
    fun _ _ _ _ => rfl

theorem checkProposal (v : Var) (name : String) : Confined (Builder.checkProposal v name) :=
  .bind graph fun _ => .guarded (.guarded (.ite (.refuse _) (.pure _)))

theorem addArray (v : Var) (before : String) (record : Bool) :
    Confined (Builder.addArray v before record) := by
  unfold Builder.addArray
  refine .guarded (.bind (proposal v before) fun name => .bind (checkProposal v _) fun _ => .bind
    (.lift _) fun _ => .bind (changeGraph _) fun _ => ?_)
  cases record with
  | false => exact .pure _
  | true =>
    refine .bind (attempt (mapVariable v _)) fun outcome => ?_
    cases outcome with
    | ok _ => exact .pure _
    | error failure => exact .bind (changeGraph _) fun _ => .bind (throw failure) fun _ => .pure _

theorem lookup? (v : Var) : Confined (Builder.lookup? v) := by
  refine .bind draft fun d => ?_
  split
  · exact .pure _
  · exact .guarded (.pure _)

theorem lookup (v : Var) : Confined (Builder.lookup v) := by
  refine .bind (lookup? v) fun found? => ?_
  cases found? with
  | none => exact .refuse _
  | some name => exact .pure _

theorem resolveAtom (options : ResolveOptions) (atom : Atom) :
    Confined (Builder.resolveAtom options atom) := by
  cases atom with
  | literal s => exact .ite (.pure _) (.refuse _)
  | var v =>
    refine .bind (.bind (lookup? v) fun found? => ?_) fun _ => .pure _
    cases found? with
    | none => exact .guarded (addArray v _ _)
    | some name => exact .guarded (.pure _)

theorem resolveAll (options : ResolveOptions) (atoms : List Atom) :
    Confined (Builder.resolveAll options atoms) := by
  induction atoms with
  | nil => exact .pure _
  | cons atom rest ih => exact .bind (resolveAtom options atom) fun _ => .bind ih fun _ => .pure _

theorem resolve (options : ResolveOptions) (atoms : List Atom) :
    Confined (Builder.resolve options atoms) := by
  unfold Builder.resolve
  exact .guarded (resolveAll options atoms)

theorem createVars (vs : List Var) (before : String) : Confined (Builder.createVars vs before) :=
  .bind (resolve _ _) fun _ => .pure _

end Confined

theorem Emits.confined {state : Nat} {step : LowerM (Option Nat)}
    {nodes : Dict Descriptor → Outcome (List Node)} (emits : Emits state step nodes) :
    Confined step := by
  induction emits with
  | refuse => exact .refuse _
  | nothing => exact .pure _
  | lift _ ih => exact .bind (.lift _) ih
  | array _ ih => exact .bind (.array _) ih
  | emit _ ih => exact .bind (.emit _ _) fun _ => ih
  | guarded _ ih => exact .guarded ih

-- A toolkit whose rules and named functions keep to the innermost draft.
structure Toolkit.Confined (kit : Toolkit) : Prop where
  lower (f : Lambda) (name : String) : TraceFlow.Confined (kit.lower f (some name))
  rule {primitive : String} {apply : Apply} (known : kit.rule? primitive = some apply)
    (names : List (Option String)) (outputs : List String)
    (e : Equation) (state : Nat) : TraceFlow.Confined (apply names outputs e state)

namespace Nested

variable {kit : Toolkit}

theorem confined_embed (state : Nat) (child : Draft) (inputs outputs : List String) :
    Confined (embed state child inputs outputs) := by
  unfold embed
  exact .guarded (.bind (.lift _) fun _ => .emit _ _)

theorem confined_promoteFrom (pattern : String) (i : Nat) (pairs : List (Option String × Atom)) :
    Confined (promoteFrom pattern i pairs) := by
  induction pairs generalizing i with
  | nil => exact .pure _
  | cons pair rest ih =>
    obtain ⟨name?, atom⟩ := pair
    unfold promoteFrom
    cases name? with
    | some name => exact .bind (.pure _) fun _ => .bind (ih _) fun _ => .pure _
    | none =>
      cases atom with
      | literal s =>
        exact .bind (.lift _) fun _ => .bind (.changeGraph _) fun _ => .bind (.pure _) fun _ =>
          .bind (ih _) fun _ => .pure _
      | var v => exact .bind (.refuse _) fun _ => .bind (ih _) fun _ => .pure _

theorem confined_call (confined : kit.Confined) (names : List (Option String))
    (outputs : List String) (e : Equation) (state : Nat) :
    Confined (call kit names outputs e state) := by
  refine .bind (.forM fun _ => .ite (.refuse _) (.pure _)) fun _ => ?_
  split
  · exact .refuse _
  next inputs _ =>
    refine .bind (.lift _) fun callee => ?_
    have named (label : String) :
      Confined (kit.lower callee (some label) >>= fun child => embed state child inputs outputs >>=
        fun _ => pure (none : Option Nat)) :=
      .bind (confined.lower callee label) fun child => .bind (confined_embed _ _ _ _) fun _ =>
        .pure _
    exact .ite (.bind (.lift _) fun _ => named _) (.bind (.pure _) fun _ => named _)

theorem confined_selection (pattern : String) (name? : Option String) (selector : Atom)
    (state : Nat) : Confined (selection pattern name? selector state) := by
  unfold selection
  split
  · exact .pure _
  · exact .bind (.append _ _ _ _) fun _ => .bind (.changeGraph _) fun _ => .pure _
  · exact .refuse _

theorem confined_branchStates (confined : kit.Confined) (pattern : String) (operand : Operand)
    (source : Nat) (inputs outputs : List String) (i : Nat) (branches : List Lambda) :
    Confined (branchStates kit pattern operand source inputs outputs i branches) := by
  induction branches generalizing i with
  | nil => exact .pure _
  | cons branch rest ih =>
    refine .bind (confined.lower _ _) fun child => .bind (.append _ _ _ _) fun state => ?_
    exact .bind (confined_embed _ _ _ _) fun _ => .bind (ih _) fun _ => .pure _

theorem confined_cond (confined : kit.Confined) (names : List (Option String))
    (outputs : List String) (e : Equation) (state : Nat) :
    Confined (cond kit names outputs e state) := by
  unfold cond
  split
  · refine .guarded (.bind (.lift _) fun branches => .bind .graph fun g => .bind (.lift _) fun _ =>
      ?_)
    refine .bind (confined_promoteFrom _ _ _) fun inputs => .bind (confined_selection _ _ _ _)
      fun selected => ?_
    refine .bind (confined_branchStates confined _ _ _ _ _ _ _) fun states => ?_
    cases states with
    | nil => exact .refuse _
    | cons first others =>
      exact .bind (.append _ _ _ _) fun _ => .bind (.changeGraph _) fun _ => .pure _
  · exact .refuse _

end Nested

namespace Lowering

variable {kit : Toolkit}

theorem confined_bindConstants (pairs : List (String × Tensor)) :
    Confined (bindConstants pairs) := by
  induction pairs with
  | nil => exact .pure _
  | cons pair rest ih => exact .bind (.changeGraph _) fun _ => ih

theorem confined_createConstants (f : Lambda) : Confined (createConstants f) :=
  .ite (.bind (.createVars _ _) fun _ => confined_bindConstants _) (.pure _)

theorem confined_settle (primitive : String) (state : Nat) (reported? : Option Nat) :
    Confined (settle primitive state reported?) := by
  refine .bind .draft fun d => ?_
  cases reported? with
  | none => exact .guarded (.bind .draft fun _ => .lift _)
  | some terminal => exact .bind (.setDraft _) fun _ => .bind .draft fun _ => .lift _

theorem confined_lowerEquation (confined : kit.Confined) (e : Equation) :
    Confined (lowerEquation kit e) := by
  unfold lowerEquation
  refine .guarded (.bind (.resolve _ _) fun inputs => .bind (.createVars _ _) fun outputs => ?_)
  split
  · exact .refuse _
  next apply known =>
    exact .bind (.append _ _ _ _) fun state => .bind (confined.rule known _ _ _ _) fun _ =>
      confined_settle _ _ _

theorem confined_inEquation (e : Equation) {step : LowerM α} (confined : Confined step) :
    Confined (inEquation e step) := by
  intro d rest mapped
  obtain ⟨outcome, d', mapped', ran⟩ := confined d rest mapped
  cases outcome with
  | ok a => exact ⟨.ok a, d', mapped', fun unnamed => by simp only [inEquation, ran]⟩
  | error failure =>
    exact ⟨.error (failure.inEquation e.text), d', mapped',
      fun unnamed => by simp only [inEquation, ran]⟩

theorem confined_lowerEquations (confined : kit.Confined) (done : Nat) (equations : List Equation) :
    Confined (lowerEquations kit done equations) := by
  induction equations generalizing done with
  | nil => exact .pure _
  | cons e rest ih =>
    refine .ite ?_ (.bind (confined_inEquation e (confined_lowerEquation confined e)) fun _ => ih _)
    exact .ite (.bind (confined_inEquation e (.refuse _)) fun _ => ih _) (ih _)

theorem confined_addAlias (state : Nat) (v : Var) : Confined (addAlias state v) :=
  .bind (.lookup v) fun _ => .bind (.addArray _ _ _) fun _ => .bind (.array _) fun _ => .bind
    (.changeGraph _) fun _ => .pure _

theorem confined_addAliases (state : Nat) (known : List (Var × String)) (atoms : List Atom) :
    Confined (addAliases state known atoms) := by
  induction atoms generalizing known with
  | nil => exact .pure _
  | cons atom rest ih =>
    cases atom with
    | literal s => exact .refuse _
    | var v =>
      unfold addAliases
      split
      · exact .bind (ih _) fun _ => .pure _
      · exact .bind (confined_addAlias state v) fun _ => .bind (ih _) fun _ => .pure _

theorem confined_aliasOutputs (f : Lambda) : Confined (aliasOutputs f) :=
  .bind .draft fun _ => .guarded (.bind (confined_addAliases _ _ _) fun _ => .bind
    (.forM fun _ => .unmapVariable _) fun _ => .pure _)

theorem confined_lowerBody (confined : kit.Confined) (f : Lambda) : Confined (lowerBody kit f) := by
  have entered : Confined (enter f) :=
    .bind (confined_createConstants f) fun _ => .bind (.createVars _ _) fun _ => .bind .draft
      fun _ => .setDraft _
  refine .bind entered fun _ => .bind (confined_lowerEquations confined 0 f.equations) fun count =>
    ?_
  cases count with
  | zero => exact confined_aliasOutputs f
  | succ count => exact .bind (.resolve _ _) fun _ => .pure _

-- Lowers into the draft on top of the stack and takes it off.
def inside (kit : Toolkit) (f : Lambda) : LowerM Draft := do
  let outcome ← attempt (lowerBody kit f)
  match ← pop with
  | none => refuse (.invariant "translation context vanished")
  | some d =>
    let outputs ← lift outcome
    return { d with outputs? := some outputs }

-- The draft is gone whether the body succeeds or not; the last one takes the number of mapped
-- variables with it.
theorem inside_ends (confined : kit.Confined) (f : Lambda) (d : Draft) (stack : List Draft)
    (mapped : Nat) : ∃ outcome mapped', ∀ unnamed, inside kit f ⟨d :: stack, mapped, unnamed⟩ =
    (outcome, ⟨stack, if stack.isEmpty then 0 else mapped', unnamed⟩) := by
  obtain ⟨outcome, d', mapped', ran⟩ := confined_lowerBody confined f d stack mapped
  refine ⟨outcome.map fun outputs => { d' with outputs? := some outputs }, mapped',
    fun unnamed => ?_⟩
  have body : attempt (lowerBody kit f) ⟨d :: stack, mapped, unnamed⟩ = (.ok outcome,
    ⟨d' :: stack, mapped', unnamed⟩) := by
    simp only [attempt, ran]
  rw [inside, bind_run, body]
  rcases stack with _ | ⟨outer, others⟩ <;> cases outcome <;> rfl

theorem lowerWith_eq (f : Lambda) (name? : Option String) :
    lowerWith kit f name? = if (!f.effects.isEmpty) = true then refuse
      (.unsupported s!"jaxpr with side effects {Text.quotedList f.effects}")
      else push name? >>= fun _ => inside kit f := by
  unfold lowerWith
  split <;> rfl

theorem lowerWith_ends (confined : kit.Confined) (f : Lambda) (name? : Option String)
    (b : Builder) : ∃ outcome mapped unnamed, (b.drafts = [] → b.mapped = 0 → mapped = 0) ∧
    lowerWith kit f name? b = (outcome, ⟨b.drafts, mapped, unnamed⟩) := by
  obtain ⟨stack, mapped, unnamed⟩ := b
  rw [lowerWith_eq]
  by_cases effects : (!f.effects.isEmpty) = true
  · rw [if_pos effects]
    exact ⟨_, mapped, unnamed, fun _ none => none, rfl⟩
  rw [if_neg effects, bind_run]
  have pushed : (∃ failure, push name? ⟨stack, mapped, unnamed⟩ = (.error failure,
    ⟨stack, mapped, unnamed⟩)) ∨
      ∃ title unnamed', push name? ⟨stack, mapped, unnamed⟩ = (.ok (),
        ⟨Draft.new title :: stack, mapped, unnamed'⟩) := by
    cases name? with
    | none => exact .inr ⟨_, unnamed + 1, rfl⟩
    | some name =>
      by_cases valid : Naming.isIdentifier name = true
      · exact .inr ⟨name, unnamed, by simp [push, valid]; rfl⟩
      · exact .inl ⟨_, by simp [push, valid]; rfl⟩
  rcases pushed with ⟨failure, pushed⟩ | ⟨title, unnamed', pushed⟩
  · rw [pushed]
    exact ⟨_, mapped, unnamed, fun _ none => none, rfl⟩
  · obtain ⟨outcome, mapped', ends⟩ := inside_ends confined f (Draft.new title) stack mapped
    rw [pushed]
    refine ⟨outcome, _, unnamed', fun empty _ => ?_, ends unnamed'⟩
    rw [show stack = [] from empty]
    rfl

theorem lowerWith_named (confined : kit.Confined) (f : Lambda) (name : String) (stack : List Draft)
    (mapped : Nat) : ∃ outcome mapped', ∀ unnamed, lowerWith kit f
      (some name) ⟨stack, mapped, unnamed⟩ = (outcome, ⟨stack, mapped', unnamed⟩) := by
  rw [lowerWith_eq]
  by_cases effects : (!f.effects.isEmpty) = true
  · rw [if_pos effects]
    exact ⟨_, mapped, fun _ => rfl⟩
  rw [if_neg effects]
  by_cases valid : Naming.isIdentifier name = true
  · have pushed (unnamed : Nat) :
      push (some name) ⟨stack, mapped, unnamed⟩ = (.ok (),
        ⟨Draft.new name :: stack, mapped, unnamed⟩) := by
      simp only [push, valid, if_true]
      rfl
    obtain ⟨outcome, mapped', ends⟩ := inside_ends confined f (Draft.new name) stack mapped
    exact ⟨outcome, _, fun unnamed => by rw [bind_run, pushed]; exact ends unnamed⟩
  · refine ⟨.error (.error (.naming s!"'{name}' is not a valid SDFG name")), mapped,
      fun unnamed => ?_⟩
    simp only [push, valid]
    rfl

theorem confined_toolkit (fuel : Nat) : (toolkit .builtin fuel).Confined := by
  induction fuel with
  | zero =>
    refine ⟨fun _ _ => .refuse _, ?_⟩
    intro primitive apply known
    cases known
  | succ fuel ih =>
    constructor
    · -- On a stack that is not empty the draft below is still there when the new one has gone.
      intro f name d rest mapped
      obtain ⟨outcome, mapped', ran⟩ := lowerWith_named ih f name (d :: rest) mapped
      exact ⟨outcome, d, mapped', ran⟩
    · intro primitive apply known names outputs e state
      obtain ⟨rule, listed, rfl⟩ := Option.map_eq_some_iff.mp known
      rcases builtin_cases listed with ⟨-, cond⟩ | ⟨-, call⟩ | ⟨nodes, -, flat⟩
      · rw [cond]
        exact Nested.confined_cond ih names outputs e state
      · rw [call]
        exact Nested.confined_call ih names outputs e state
      · exact (flat _ names outputs e state).confined

end Lowering

namespace Builder

variable {b : Builder}

-- A step that needs a draft and finds none.
def Stuck {α : Type} (step : LowerM α) : Prop :=
  ∀ mapped unnamed, ∃ failure, step ⟨[], mapped, unnamed⟩ = (.error failure, ⟨[], mapped, unnamed⟩)

section

variable {α β : Type}

theorem stuck_refuse (cause : Error) : Stuck (refuse cause : LowerM α) :=
  fun _ _ => ⟨_, rfl⟩

theorem stuck_draft : Stuck draft :=
  fun _ _ => ⟨_, rfl⟩

theorem Stuck.bind {step : LowerM α} (stuck : Stuck step) (next : α → LowerM β) :
    Stuck (step >>= next) := by
  intro mapped unnamed
  obtain ⟨failure, ran⟩ := stuck mapped unnamed
  exact ⟨failure, by rw [bind_run, ran]⟩

theorem Stuck.ite [Decidable c] {step other : LowerM α} (yes : Stuck step) (no : Stuck other) :
    Stuck (if c then step else other) := by
  split
  · exact yes
  · exact no

theorem stuck_append (label? : Option String) (guard? : Option Guard) (assignments : Dict Binding)
    (after? : Option Nat) : Stuck (append label? guard? assignments after?) := by
  unfold append
  cases label? with
  | none => exact stuck_draft.bind _
  | some label => exact .ite ((stuck_refuse _).bind _) (stuck_draft.bind _)

theorem stuck_addArray (v : Var) (before : String) (record : Bool) :
    Stuck (addArray v before record) := by
  unfold addArray
  exact .ite ((stuck_refuse _).bind _) (.bind (stuck_draft.bind _) _)

theorem resolve_empty (options : ResolveOptions) (atoms : List Atom) (mapped unnamed : Nat) :
    ∃ outcome, resolve options atoms ⟨[], mapped, unnamed⟩ = (outcome, ⟨[], mapped, unnamed⟩) := by
  have all : ∃ outcome, resolveAll options atoms ⟨[], mapped, unnamed⟩ = (outcome,
    ⟨[], mapped, unnamed⟩) := by
    induction atoms with
    | nil => exact ⟨_, rfl⟩
    | cons atom rest ih =>
      obtain ⟨outcome, ran⟩ := ih
      cases atom with
      | var v =>
        have stuck : Stuck (resolveAll options (.var v :: rest)) :=
          .bind (.bind (.bind (stuck_draft.bind _) _) _) _
        obtain ⟨failure, ran⟩ := stuck mapped unnamed
        exact ⟨_, ran⟩
      | literal value =>
        rw [resolveAll, resolveAtom]
        by_cases allowed : options.allowLiterals = true
        · rw [if_pos allowed]
          change ∃ outcome, (resolveAll options rest >>= _) _ = _
          rw [bind_run, ran]
          cases outcome <;> exact ⟨_, rfl⟩
        · rw [if_neg allowed]
          exact ⟨_, rfl⟩
  obtain ⟨outcome, ran⟩ := all
  unfold resolve
  split
  · exact ⟨_, rfl⟩
  · exact ⟨outcome, ran⟩

end

-- The builders that come from a new one by whatever a caller can do with it, whether or not it
-- succeeds.
inductive Reached : Builder → Prop
  | new (unnamed : Nat) : Reached (.new unnamed)
  | push {b : Builder} (name? : Option String) : Reached b → Reached (push name? b).2
  | pop {b : Builder} : Reached b → Reached (pop b).2
  | append {b : Builder} (label? : Option String) (guard? : Option Guard)
    (assignments : Dict Binding) (after? : Option Nat) :
    Reached b → Reached (append label? guard? assignments after? b).2
  | addArray {b : Builder} (v : Var) (before : String) (record : Bool) :
    Reached b → Reached (addArray v before record b).2
  | mapVariable {b : Builder} (v : Var) (name : String) :
    Reached b → Reached (mapVariable v name b).2
  | resolve {b : Builder} (options : ResolveOptions) (atoms : List Atom) :
    Reached b → Reached (resolve options atoms b).2
  | changeGraph {b : Builder} (change : Graph → Outcome Graph) :
    Reached b → Reached (changeGraph change b).2
  | lower {b : Builder} (f : Lambda) (name? : Option String) :
    Reached b → Reached (lower .builtin f name? b).2

def Even (b : Builder) : Prop :=
  b.drafts = [] → b.mapped = 0

theorem Even.step {step : LowerM α} (confined : Confined step) (idle : ∀ mapped unnamed, ∃ outcome,
      step ⟨[], mapped, unnamed⟩ = (outcome, ⟨[], mapped, unnamed⟩)) (even : b.Even) :
    Even (step b).2 := by
  obtain ⟨_ | ⟨d, rest⟩, mapped, unnamed⟩ := b
  · obtain ⟨outcome, ran⟩ := idle mapped unnamed
    rw [ran]
    exact even
  · obtain ⟨outcome, d', mapped', ran⟩ := confined d rest mapped
    rw [ran]
    intro empty
    cases empty

theorem Even.stuck {step : LowerM α} (confined : Confined step) (stuck : Stuck step)
    (even : b.Even) : Even (step b).2 :=
  even.step confined fun mapped unnamed => (stuck mapped unnamed).imp' Except.error fun _ ran => ran

theorem Reached.even (reached : b.Reached) : b.Even := by
  induction reached with
  | new unnamed => exact fun _ => rfl
  | @push b name? _ ih =>
    obtain ⟨stack, mapped, unnamed⟩ := b
    cases name? with
    | none =>
      intro empty
      cases empty
    | some name =>
      by_cases valid : Naming.isIdentifier name = true
      · simp only [Builder.push, valid, if_true]
        intro empty
        cases empty
      · simp only [Builder.push, valid]
        exact ih
  | @pop b _ ih =>
    obtain ⟨_ | ⟨d, _ | ⟨outer, rest⟩⟩, mapped, unnamed⟩ := b
    · exact ih
    · exact fun _ => rfl
    · intro empty
      cases empty
  | append label? guard? assignments after? _ ih =>
    exact ih.stuck (.append _ _ _ _) (stuck_append _ _ _ _)
  | addArray v before record _ ih => exact ih.stuck (.addArray _ _ _) (stuck_addArray _ _ _)
  | mapVariable v name _ ih => exact ih.stuck (.mapVariable _ _) (stuck_draft.bind _)
  | resolve options atoms _ ih => exact ih.step (.resolve _ _) (resolve_empty options atoms)
  | changeGraph change _ ih => exact ih.stuck (.changeGraph _) (stuck_draft.bind _)
  | @lower b f name? _ ih =>
    obtain ⟨outcome, mapped, unnamed, kept, ran⟩ :=
      lowerWith_ends (confined_toolkit (levels .builtin f)) f name? b
    have ended : (Lowering.lower .builtin f name? b).2 = ⟨b.drafts, mapped, unnamed⟩ :=
      congrArg Prod.snd ran
    rw [ended]
    exact fun empty => kept empty (ih empty)

end Builder

namespace Lowering

def after (history : List (Lambda × Option String)) (b : Builder) : Builder :=
  history.foldl (fun b (f, name?) => (lower .builtin f name? b).2) b

theorem after_reached {b : Builder} (reached : b.Reached)
    (history : List (Lambda × Option String)) : (after history b).Reached := by
  induction history generalizing b with
  | nil => exact reached
  | cons first rest ih => exact ih (reached.lower first.1 first.2)

theorem toolkit_lower_stack (fuel : Nat) (f : Lambda) (name? : Option String) (b : Builder) :
    ((toolkit .builtin fuel).lower f name? b).2.drafts = b.drafts := by
  cases fuel with
  | zero => rfl
  | succ fuel =>
    obtain ⟨outcome, mapped, unnamed, -, ran⟩ := lowerWith_ends (confined_toolkit fuel) f name? b
    exact congrArg (fun ended => ended.2.drafts) ran

theorem after_stack (history : List (Lambda × Option String)) (b : Builder) :
    (after history b).drafts = b.drafts := by
  induction history generalizing b with
  | nil => rfl
  | cons first rest ih => exact (ih _).trans (toolkit_lower_stack _ _ _ _)

theorem lower_forgets :
    (∀ (f : Lambda) (name? : Option String) (b : Builder), (lower .builtin f name? b).2.drafts =
      b.drafts) ∧ (∀ (fuel : Nat) (f : Lambda) (name? : Option String) (b : Builder),
      ((toolkit .builtin fuel).lower f name? b).2.drafts = b.drafts) ∧
    ∀ b : Builder, b.Reached → b.drafts = [] →
    ∀ (history : List (Lambda × Option String)) (f : Lambda) (name : String) (unnamed : Nat),
      (lower .builtin f (some name) (after history b)).1 =
      (lower .builtin f (some name) (.new unnamed)).1 := by
  refine ⟨fun f name? b => toolkit_lower_stack _ f name? b, toolkit_lower_stack, ?_⟩
  intro b reached empty history f name unnamed
  obtain ⟨outcome, mapped, ran⟩ := lowerWith_named (confined_toolkit (levels .builtin f)) f name []
    0
  have drafts : (after history b).drafts = [] := (after_stack history b).trans empty
  have settled : after history b = ⟨[], 0, (after history b).unnamed⟩ := by
    rw [← (after_reached reached history).even drafts, ← drafts]
  rw [settled]
  exact (congrArg Prod.fst (ran _)).trans (congrArg Prod.fst (ran unnamed)).symm

-- Calls a function that negates its input and then returns the given variable.
def negating (returned : Nat) : Lambda :=
  let v (id : Nat) : Var := ⟨id, .traced, [2], .int64⟩
  let callee : Lambda := ⟨[v 0], [], [], [], [⟨"neg", [.var (v 0)], [v 1], {}, false⟩],
    [.var (v returned)]⟩
  ⟨[v 0], [], [], [], [⟨"pjit", [.var (v 0)], [v 2], Dict.ofList [("jaxpr", .lambda callee)],
    false⟩], [.var (v 2)]⟩

-- A callee that returns what it never had fails two levels deep; nothing of that is left.
theorem lower_forgets_negating :
    ((lower .builtin (negating 5) none (.new 0)).1 matches .error _) = true ∧
      ((lower .builtin (negating 1) (some "second") (.new 7)).1 matches .ok _) = true ∧
      (lower .builtin (negating 1) (some "second")
        (after [(negating 5, none), (negating 1, some "first")] (.new 0))).1 =
        (lower .builtin (negating 1) (some "second") (.new 7)).1 :=
  ⟨by decide +kernel, by decide +kernel, lower_forgets.2.2 (.new 0) (.new 0) rfl _ _ _ 7⟩

end Lowering

end TraceFlow
