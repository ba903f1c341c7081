import TraceFlow.Proofs.BuilderHistory
import TraceFlow.Proofs.Likewise
import TraceFlow.Proofs.Renaming

set_option autoImplicit false

namespace TraceFlow

open Builder Outcome List

def Graph.titled (g : Graph) (title : String) : Graph :=
  { g with name := title }

theorem Graph.titled_self (g : Graph) : g.titled g.name = g := by
  cases g
  rfl

-- The draft under another title and other variable numbers.
def Draft.renamed (σ : Nat → Nat) (title : String) (d : Draft) : Draft :=
  { d with graph := d.graph.titled title, names := d.names.map fun entry => (σ entry.1, entry.2) }

def Graph.Kin (titles : String × String) (g g' : Graph) : Prop :=
  g.name = titles.1 ∧ g' = g.titled titles.2

def Draft.Kin (σ : Nat → Nat) (titles : String × String) (d d' : Draft) : Prop :=
  d.graph.name = titles.1 ∧ d' = d.renamed σ titles.2

inductive Builder.KinDrafts (σ : Nat → Nat) : List (String × String) → List Draft → List Draft →
    Prop
  | nil : KinDrafts σ [] [] []
  | cons {titles : String × String} {others : List (String × String)} {d d' : Draft}
    {rest rest' : List Draft} :
      d.Kin σ titles d' → KinDrafts σ others rest rest' →
      KinDrafts σ (titles :: others) (d :: rest) (d' :: rest')

structure Builder.Kin (σ : Nat → Nat) (titles : List (String × String)) (b b' : Builder) :
    Prop where
  drafts : KinDrafts σ titles b.drafts b'.drafts
  mapped : b'.mapped = b.mapped

abbrev Uniform {α β : Type} (σ : Nat → Nat) (titles : List (String × String))
    (related : α → β → Prop) (step : LowerM α) (step' : LowerM β) : Prop :=
  Twin (Builder.Kin σ titles) related step step'

theorem Draft.nameOf?_renamed {σ : Nat → Nat} (injective : Function.Injective σ) (title : String)
    (d : Draft) (v : Var) : (d.renamed σ title).nameOf? (v.renamed σ) = d.nameOf? v := by
  simp only [nameOf?, renamed, Var.renamed, find?_map, Function.comp_def, injective.eq_iff,
    Option.map_map]

namespace Uniform

section Innermost

variable {α β : Type} {σ : Nat → Nat} {titles : String × String} {others : List (String × String)}
  {related : α → β → Prop}

theorem change (effect : Draft → Nat → Outcome α × Draft × Nat)
    (effect' : Draft → Nat → Outcome β × Draft × Nat) {step : LowerM α} {step' : LowerM β}
    (ran : ∀ d rest mapped unnamed, step ⟨d :: rest, mapped, unnamed⟩ =
      ((effect d mapped).1, ⟨(effect d mapped).2.1 :: rest, (effect d mapped).2.2, unnamed⟩))
    (ran' : ∀ d rest mapped unnamed, step' ⟨d :: rest, mapped, unnamed⟩ =
      ((effect' d mapped).1, ⟨(effect' d mapped).2.1 :: rest, (effect' d mapped).2.2, unnamed⟩))
    (alike : ∀ d d' mapped, d.Kin σ titles d' →
      Likewise related (effect d mapped).1 (effect' d' mapped).1 ∧
      (effect d mapped).2.1.Kin σ titles (effect' d' mapped).2.1 ∧
      (effect' d' mapped).2.2 = (effect d mapped).2.2) :
    Uniform σ (titles :: others) related step step' := by
  rintro ⟨drafts, mapped, unnamed⟩ ⟨drafts', mapped', unnamed'⟩ ⟨kin, same⟩
  obtain rfl : mapped' = mapped := same
  cases kin with
  | @cons _ _ d d' rest rest' kin below =>
    obtain ⟨likewise, kin, counted⟩ := alike d d' mapped' kin
    rw [ran, ran']
    exact ⟨likewise, .cons kin below, counted⟩

theorem attempt {step : LowerM α} {step' : LowerM β}
    (uniform : Uniform σ (titles :: others) related step step') :
    Uniform σ (titles :: others) (Likewise related) (Builder.attempt step)
      (Builder.attempt step') :=
  fun b b' kin => ⟨.gives (uniform b b' kin).1, (uniform b b' kin).2⟩

theorem draft : Uniform σ (titles :: others) (Draft.Kin σ titles) Builder.draft Builder.draft :=
  change (fun d mapped => (.ok d, d, mapped)) (fun d mapped => (.ok d, d, mapped))
    (fun _ _ _ _ => rfl) (fun _ _ _ _ => rfl)
    fun _ _ _ kin => ⟨.gives kin, kin, rfl⟩

theorem setDraft {d d' : Draft} (kin : d.Kin σ titles d') : Uniform σ (titles :: others) Eq
    (Builder.setDraft d) (Builder.setDraft d') :=
  change (fun _ mapped => (.ok (), d, mapped)) (fun _ mapped => (.ok (), d', mapped))
    (fun _ _ _ _ => rfl) (fun _ _ _ _ => rfl)
    fun _ _ _ _ => ⟨.gives rfl, kin, rfl⟩

theorem graph : Uniform σ (titles :: others) (Graph.Kin titles) Builder.graph Builder.graph :=
  .bind draft fun _ _ kin => .pure ⟨kin.1, by rw [kin.2]; rfl⟩

theorem changeGraph {change : Graph → Outcome Graph}
    (blind : ∀ g g', g.Kin titles g' → Likewise (Graph.Kin titles) (change g) (change g')) :
    Uniform σ (titles :: others) Eq (Builder.changeGraph change) (Builder.changeGraph change) := by
  refine .bind draft fun d d' kin => ?_
  obtain ⟨title, rfl⟩ := kin
  refine .bind (.lift (blind d.graph _ ⟨title, rfl⟩)) fun g g' kin => ?_
  obtain ⟨title, rfl⟩ := kin
  exact setDraft ⟨title, rfl⟩

end Innermost

end Uniform

-- Every change that lowering makes to a graph is of this kind.
namespace Graph.Kin

variable {titles : String × String} {g g' : Graph}

theorem addArray (kin : g.Kin titles g') (name : String) (d : Descriptor) :
    Likewise (Graph.Kin titles) (g.addArray name d) (g'.addArray name d) := by
  obtain ⟨title, rfl⟩ := kin
  exact .ite (fun _ => .fails rfl) fun _ => .gives ⟨title, rfl⟩

theorem addNode (kin : g.Kin titles g') (id : Nat) (node : Node) : Likewise (Graph.Kin titles)
    (g.addNode id node) (g'.addNode id node) := by
  obtain ⟨title, rfl⟩ := kin
  exact .ite (fun _ => .gives ⟨title, rfl⟩) fun _ => .fails rfl

theorem addConstant (kin : g.Kin titles g') (name : String) (value : Tensor) :
    Likewise (Graph.Kin titles) (g.addConstant name value) (g'.addConstant name value) := by
  refine (Likewise.of_eq rfl).bind fun d _ same => ?_
  subst same
  refine (kin.addArray name d).bind fun h h' kin => ?_
  obtain ⟨title, rfl⟩ := kin
  exact .gives ⟨title, rfl⟩

theorem bindConstant (kin : g.Kin titles g') (name : String) (value : Tensor) :
    Likewise (Graph.Kin titles) (g.bindConstant name value) (g'.bindConstant name value) := by
  obtain ⟨title, rfl⟩ := kin
  unfold Graph.bindConstant
  have same : (g.titled titles.2).arrays = g.arrays := rfl
  rw [same]
  cases g.arrays.get? name with
  | none => exact .fails rfl
  | some d =>
    refine (Likewise.of_eq rfl).seq fun fitting => .ite (fun _ => ?_) fun _ => ?_
    · exact (Likewise.of_eq rfl).seq fun text => .fails rfl
    · exact (Likewise.of_eq rfl).seq fun reshaped => .gives ⟨title, rfl⟩

end Graph.Kin

namespace Uniform

variable {σ : Nat → Nat} {titles : String × String} {others : List (String × String)}

theorem emit (state : Nat) (node : Node) : Uniform σ (titles :: others) Eq
    (TraceFlow.emit state node) (TraceFlow.emit state node) :=
  changeGraph fun _ _ kin => kin.addNode state node

theorem array (name : String) : Uniform σ (titles :: others) Eq (Builder.array name)
    (Builder.array name) := by
  refine .bind graph fun g g' kin => ?_
  obtain ⟨title, rfl⟩ := kin
  have same : (g.titled titles.2).array? name = g.array? name := rfl
  rw [same]
  cases g.array? name with
  | none => exact .refuse rfl
  | some d => exact .pure rfl

theorem append (label? : Option String) (guard? : Option Guard) (assignments : Dict Binding)
    (after? : Option Nat) :
    Uniform σ (titles :: others) Eq (Builder.append label? guard? assignments after?)
      (Builder.append label? guard? assignments after?) := by
  unfold Builder.append
  rcases label? with _ | label
  -- The check of a label stands in front; the rest is the same.
  on_goal 2 => refine .guarded rfl ?_
  all_goals
    refine .bind draft fun d d' kin => ?_
    obtain ⟨title, rfl⟩ := kin
    exact .guarded rfl (.bind (setDraft ⟨title, rfl⟩) fun _ _ _ => .pure rfl)

variable (injective : Function.Injective σ)

include injective

theorem proposal (v : Var) (before : String) : Uniform σ (titles :: others) Eq
    (Builder.proposal v before) (Builder.proposal (v.renamed σ) before) := by
  refine .bind draft fun d d' kin => ?_
  obtain ⟨-, rfl⟩ := kin
  rw [Draft.nameOf?_renamed injective]
  have explicit : (v.renamed σ).explicitName? = v.explicitName? := rfl
  rw [explicit]
  cases d.nameOf? v with
  | some name => exact .pure rfl
  | none =>
    cases v.explicitName? with
    | some name => exact .pure rfl
    | none =>
      -- Both count the same variables and know the same arrays.
      let next (mapped : Nat) := freshFrom (fun name => d.graph.arrays.contains (before ++ name))
        d.graph.arrays.size mapped
      exact change (fun e mapped => (.ok (next mapped), e, mapped))
        (fun e mapped => (.ok (next mapped), e, mapped)) (fun _ _ _ _ => rfl)
        (fun _ _ _ _ => rfl) fun _ _ _ kin => ⟨.gives rfl, kin, rfl⟩

theorem mapVariable (v : Var) (name : String) : Uniform σ (titles :: others) Eq
    (Builder.mapVariable v name) (Builder.mapVariable (v.renamed σ) name) := by
  refine .bind draft fun d d' kin => ?_
  obtain ⟨title, rfl⟩ := kin
  rw [Draft.nameOf?_renamed injective]
  cases d.nameOf? v with
  | some existing => exact .ite (.refuse (Error.kind_naming _ _)) (.pure rfl)
  | none =>
    refine .guarded (Error.kind_naming _ _) (.guarded (Error.kind_naming _ _) ?_)
    exact change (fun _ mapped => (.ok (), { d with names := (v.id, name) :: d.names }, mapped + 1))
      (fun _ mapped => (.ok (), { d.renamed σ titles.2 with names :=
        (σ v.id, name) :: (d.renamed σ titles.2).names }, mapped + 1))
      (fun _ _ _ _ => rfl) (fun _ _ _ _ => rfl) fun _ _ _ _ => ⟨.gives rfl, ⟨title, rfl⟩, rfl⟩

theorem unmapVariable (v : Var) : Uniform σ (titles :: others) Eq (Builder.unmapVariable v)
    (Builder.unmapVariable (v.renamed σ)) := by
  refine .bind draft fun d d' kin => ?_
  obtain ⟨title, rfl⟩ := kin
  rw [Draft.nameOf?_renamed injective]
  refine .ite ?_ (.pure rfl)
  refine change (fun _ mapped => (.ok (),
    { d with names := d.names.filter fun entry => entry.1 ≠ v.id }, mapped - 1))
    (fun _ mapped => (.ok (), { d.renamed σ titles.2 with
      names := (d.renamed σ titles.2).names.filter fun entry => entry.1 ≠ σ v.id }, mapped - 1))
    (fun _ _ _ _ => rfl) (fun _ _ _ _ => rfl) fun _ _ _ _ => ⟨.gives rfl, ⟨title, ?_⟩, rfl⟩
  simp only [Draft.renamed, filter_map, Function.comp_def, ne_eq, injective.eq_iff]

omit injective in
theorem checkProposal (v : Var) (name : String) : Uniform σ (titles :: others) Eq
    (Builder.checkProposal v name) (Builder.checkProposal (v.renamed σ) name) := by
  refine .bind graph fun g g' kin => ?_
  obtain ⟨-, rfl⟩ := kin
  exact .guarded (Error.kind_naming _ _)
    (.guarded (Error.kind_naming _ _) (.ite (.refuse (Error.kind_naming _ _)) (.pure rfl)))

theorem addArray (v : Var) (before : String) (record : Bool) :
    Uniform σ (titles :: others) Eq (Builder.addArray v before record)
      (Builder.addArray (v.renamed σ) before record) := by
  unfold Builder.addArray
  refine .guarded rfl (.seq (proposal injective v before) fun name => .seq (checkProposal v _)
    fun _ => .seq (.lift_self _) fun d => ?_)
  refine .seq (changeGraph fun _ _ kin => kin.addArray _ d) fun _ => ?_
  cases record with
  | false => exact .pure rfl
  | true =>
    refine .bind (attempt (mapVariable injective v _)) fun outcome outcome' likewise => ?_
    cases likewise with
    | gives _ => exact .pure rfl
    | fails same =>
      -- The array is taken back before the failure goes on.
      refine .seq (changeGraph fun g g' kin => ?_) fun _ => .bind (.throw same)
        fun _ _ (impossible : False) => impossible.elim
      obtain ⟨title, rfl⟩ := kin
      exact .gives ⟨title, rfl⟩

theorem lookup? (v : Var) : Uniform σ (titles :: others) Eq (Builder.lookup? v)
    (Builder.lookup? (v.renamed σ)) := by
  refine .bind draft fun d d' kin => ?_
  obtain ⟨-, rfl⟩ := kin
  rw [Draft.nameOf?_renamed injective]
  cases d.nameOf? v with
  | none => exact .pure rfl
  | some name => exact .guarded (Error.kind_invariant _ _) (.pure rfl)

theorem lookup (v : Var) : Uniform σ (titles :: others) Eq (Builder.lookup v)
    (Builder.lookup (v.renamed σ)) := by
  refine .seq (lookup? injective v) fun found? => ?_
  cases found? with
  | none => exact .refuse (Error.kind_naming _ _)
  | some name => exact .pure rfl

theorem resolveAtom (options : ResolveOptions) (atom : Atom) :
    Uniform σ (titles :: others) Eq (Builder.resolveAtom options atom)
      (Builder.resolveAtom options (atom.renamed σ)) := by
  cases atom with
  | literal s => exact .ite (.pure rfl) (.refuse rfl)
  | var v =>
    refine .seq (.seq (lookup? injective v) fun found? => ?_) fun _ => .pure rfl
    cases found? with
    | none => exact .guarded (Error.kind_naming _ _) (addArray injective v _ _)
    | some name => exact .guarded (Error.kind_naming _ _) (.pure rfl)

theorem resolveAll (options : ResolveOptions) (atoms : List Atom) :
    Uniform σ (titles :: others) Eq (Builder.resolveAll options atoms)
      (Builder.resolveAll options (atoms.map (Atom.renamed σ))) := by
  induction atoms with
  | nil => exact .pure rfl
  | cons atom rest ih =>
    exact .seq (resolveAtom injective options atom) fun _ => .seq ih fun _ => .pure rfl

theorem resolve (options : ResolveOptions) (atoms : List Atom) :
    Uniform σ (titles :: others) Eq (Builder.resolve options atoms)
      (Builder.resolve options (atoms.map (Atom.renamed σ))) := by
  unfold Builder.resolve
  exact .guarded rfl (resolveAll injective options atoms)

theorem createVars (vs : List Var) (before : String) :
    Uniform σ (titles :: others) Eq (Builder.createVars vs before)
      (Builder.createVars (vs.map (Var.renamed σ)) before) := by
  have same : (vs.map (Var.renamed σ)).map Atom.var = (vs.map Atom.var).map (Atom.renamed σ) := by
    simp only [map_map, Function.comp_def, Atom.renamed]
  unfold Builder.createVars
  rw [same]
  exact .seq (resolve injective _ _) fun _ => .pure rfl

end Uniform

end TraceFlow
