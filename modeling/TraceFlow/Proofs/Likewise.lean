import TraceFlow.Proofs.LowerSteps

set_option autoImplicit false

namespace TraceFlow

variable {c : Prop}

theorem Error.kind_naming (reason reason' : String) :
    (Error.naming reason').kind = (Error.naming reason).kind := rfl

theorem Error.kind_invariant (reason reason' : String) :
    (Error.invariant reason').kind = (Error.invariant reason).kind := rfl

theorem Failure.kind_inEquation (equation : String) (failure : Failure) :
    (failure.inEquation equation).kind = failure.kind := by
  cases failure <;> rfl

open Outcome

-- Two steps that, from related states, end likewise and leave related states behind, also when they
-- fail.
def Twin {σ τ α β : Type} (kin : σ → τ → Prop) (related : α → β → Prop) (step : StepM σ α)
    (step' : StepM τ β) : Prop :=
  ∀ s s', kin s s' → Likewise related (step s).1 (step' s').1 ∧ kin (step s).2 (step' s').2

namespace Twin

variable {σ τ α β γ δ : Type} {kin : σ → τ → Prop} {related : α → β → Prop}
  {related' : γ → δ → Prop}

variable {cause cause' : Error} {step : StepM σ α} {step' : StepM τ β} {next : α → StepM σ γ}

theorem pure {a : α} {a' : β} (holds : related a a') : Twin kin related (Pure.pure a)
    (Pure.pure a') :=
  fun _ _ kin => ⟨.gives holds, kin⟩

theorem throw {failure failure' : Failure} (same : failure'.kind = failure.kind) : Twin kin related
    (MonadExcept.throw failure) (MonadExcept.throw failure') :=
  fun _ _ kin => ⟨.fails same, kin⟩

theorem refuse (same : cause'.kind = cause.kind) : Twin kin related (TraceFlow.refuse cause)
    (TraceFlow.refuse cause') :=
  throw same

theorem lift {o : Outcome α} {o' : Outcome β} (likewise : Likewise related o o') : Twin kin related
    (fun s => (o, s)) (fun s => (o', s)) :=
  fun _ _ kin => ⟨likewise, kin⟩

theorem lift_self (o : Outcome α) : Twin kin Eq (fun s => (o, s)) (fun s => (o, s)) :=
  lift (.of_eq rfl)

theorem get : Twin kin kin (MonadState.get : StepM σ σ) (MonadState.get : StepM τ τ) :=
  fun _ _ kin => ⟨.gives kin, kin⟩

theorem set {s : σ} {s' : τ} (holds : kin s s') : Twin kin Eq (MonadStateOf.set s : StepM σ PUnit)
    (MonadStateOf.set s' : StepM τ PUnit) :=
  fun _ _ _ => ⟨.gives rfl, holds⟩

theorem modifies {f : σ → σ} {f' : τ → τ} (keeps : ∀ s s', kin s s' → kin (f s) (f' s')) :
    Twin kin Eq (modify f : StepM σ PUnit) (modify f' : StepM τ PUnit) :=
  fun _ _ kin => ⟨.gives rfl, keeps _ _ kin⟩

theorem bind {next' : β → StepM τ δ} (first : Twin kin related step step')
    (second : ∀ a a', related a a' → Twin kin related' (next a) (next' a')) :
    Twin kin related' (step >>= next) (step' >>= next') := by
  intro s s' kin
  obtain ⟨likewise, kin⟩ := first s s' kin
  rw [bind_run, bind_run]
  generalize step s = ran at likewise kin
  generalize step' s' = ran' at likewise kin
  obtain ⟨outcome, after⟩ := ran
  obtain ⟨outcome', after'⟩ := ran'
  cases likewise with
  | fails same => exact ⟨.fails same, kin⟩
  | gives holds => exact second _ _ holds after after' kin

theorem seq {step' : StepM τ α} {next' : α → StepM τ δ} (first : Twin kin Eq step step')
    (second : ∀ a, Twin kin related' (next a) (next' a)) :
    Twin kin related' (step >>= next) (step' >>= next') :=
  bind first fun a _ same => same ▸ second a

theorem imp {weaker : α → β → Prop} (twin : Twin kin related step step')
    (implies : ∀ a a', related a a' → weaker a a') : Twin kin weaker step step' :=
  fun s s' kin => ⟨(twin s s' kin).1.imp implies, (twin s s' kin).2⟩

theorem ite [Decidable c] {other : StepM σ α} {other' : StepM τ β}
    (yes : Twin kin related step step') (no : Twin kin related other other')
    : Twin kin related (if c then step else other) (if c then step' else other') := by
  by_cases holds : c
  · rwa [if_pos holds, if_pos holds]
  · rwa [if_neg holds, if_neg holds]

theorem guarded [Decidable c] {next : PUnit → StepM σ α} {next' : PUnit → StepM τ β}
    (same : cause'.kind = cause.kind) (twin : Twin kin related (next ⟨⟩) (next' ⟨⟩)) :
    Twin kin related (if c then (TraceFlow.refuse cause >>= next) else next ⟨⟩)
      (if c then (TraceFlow.refuse cause' >>= next') else next' ⟨⟩) :=
  ite (throw same) twin

theorem forM {items : List α} {f : α → β} {step : α → StepM σ PUnit} {step' : β → StepM τ PUnit}
    (each : ∀ a ∈ items, Twin kin Eq (step a) (step' (f a))) :
    Twin kin Eq (items.forM step) ((items.map f).forM step') := by
  induction items with
  | nil => exact pure rfl
  | cons item rest ih =>
    exact seq (each item List.mem_cons_self) fun _ => ih fun a member => each a
      (List.mem_cons_of_mem item member)

end Twin

end TraceFlow
