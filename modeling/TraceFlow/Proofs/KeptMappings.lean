import TraceFlow.Proofs.BuilderHistory

set_option autoImplicit false

namespace TraceFlow

open Builder Lowering List

variable {α β : Type} {b : Builder} {d : Draft} {v : Var} {name before : String}

theorem Dict.erase_absent {d : Dict α} {key : String} (absent : d.get? key = none) :
    d.erase key = d := by
  have apart : ∀ entry ∈ d.entries, decide (entry.1 ≠ key) = true := by
    intro entry member
    refine decide_eq_true fun same => lookup_eq_none.mp absent ?_
    exact mem_map.mpr ⟨entry, member, same⟩
  exact congrArg Dict.mk (filter_eq_self.mpr apart)

theorem Dict.erase_insert {d : Dict α} {key : String} (absent : d.get? key = none) (value : α) :
    (d.insert key value).erase key = d := by
  have general (entries : List (String × α)) (absent : lookup key entries = none) :
      (insertEntry key value entries).filter (fun entry => entry.1 ≠ key) = entries := by
    induction entries with
    | nil => simp [insertEntry]
    | cons entry rest ih =>
      obtain ⟨key', value'⟩ := entry
      have apart : ∀ entry ∈ (key', value') :: rest, entry.1 ≠ key :=
        fun entry member same => lookup_eq_none.mp absent (mem_map.mpr ⟨entry, member, same⟩)
      have unchanged : ((key', value') :: rest).filter (fun entry => entry.1 ≠ key) = (key',
        value') :: rest :=
        filter_eq_self.mpr fun entry member => decide_eq_true (apart entry member)
      have other : key' ≠ key := apart (key', value') mem_cons_self
      rw [insertEntry, if_neg other]
      split
      · rw [filter_cons_of_neg (by simp), unchanged]
      · have behind : lookup key rest = none := by simpa [lookup, other] using absent
        rw [filter_cons_of_pos (by simpa using other), ih behind]
  exact congrArg Dict.mk (general d.entries absent)

namespace Draft

structure Grounded (d : Draft) : Prop where
  constants : ∀ name, d.graph.constants.contains name = true → d.graph.arrays.contains name = true
  named : ∀ v name, d.nameOf? v = some name → d.graph.arrays.contains name = true

def KeepsNames (d d' : Draft) : Prop :=
  ∀ v name, d.nameOf? v = some name → d'.nameOf? v = some name

theorem nameOf?_naming (other : Var) : (d.naming v name).nameOf? other = if v.id = other.id then
    some name else d.nameOf? other := by
  by_cases same : v.id = other.id <;> simp [nameOf?, naming, same]

theorem keepsNames_naming (new : d.nameOf? v = none) (name : String) :
    d.KeepsNames (d.naming v name) := by
  intro other found named
  rw [nameOf?_naming, if_neg, named]
  intro same
  rw [nameOf?, same] at new
  cases new.symm.trans named

theorem removeArray_withArray (grounded : d.Grounded) (free : d.graph.arrays.contains name = false)
    (array : Descriptor) :
    { d.withArray name array with graph := (d.withArray name array).graph.removeArray name } =
    d := by
  have absent : d.graph.arrays.get? name = none := by simpa [Dict.contains] using free
  have constant := Dict.get?_eq_none_of_absent (grounded.constants name) free
  simp only [Graph.removeArray, withArray, Dict.erase_insert absent, Dict.erase_absent constant]
  rcases d with ⟨⟨_⟩⟩
  rfl

theorem Grounded.withArray (grounded : d.Grounded) (name : String) (array : Descriptor) :
    (d.withArray name array).Grounded := by
  have kept (other : String) (present : d.graph.arrays.contains other = true) :
    (d.withArray name array).graph.arrays.contains other = true := by
    simp only [Draft.withArray, Dict.contains, Dict.get?_insert] at present ⊢
    split
    · rfl
    · exact present
  exact ⟨fun other bound => kept other (grounded.constants other bound),
    fun v other found => kept other (grounded.named v other found)⟩

theorem Grounded.naming (grounded : d.Grounded) (present : d.graph.arrays.contains name = true)
    (v : Var) : (d.naming v name).Grounded := by
  refine ⟨grounded.constants, fun other found mapped => ?_⟩
  rw [nameOf?_naming] at mapped
  split at mapped
  · cases mapped
    exact present
  · exact grounded.named other found mapped

end Draft

namespace Builder

def Grounded (b : Builder) : Prop :=
  ∀ d ∈ b.drafts, d.Grounded

-- A step that only looks.
def Silent (step : LowerM α) : Prop :=
  ∀ b, (step b).2 = b

namespace Silent

variable {step : LowerM α}

theorem pure (a : α) : Silent (Pure.pure a : LowerM α) := fun _ => rfl

theorem refuse (cause : Error) : Silent (TraceFlow.refuse cause : LowerM α) := fun _ => rfl

theorem lift (o : Outcome α) : Silent (Builder.lift o) := fun _ => rfl

theorem bind_cases (silent : Silent step) (next : α → LowerM β) (b : Builder) :
    (∃ failure, (step >>= next) b = (.error failure, b)) ∨ ∃ a, Gives step b a b ∧
    (step >>= next) b = next a b := by
  have same := silent b
  rw [bind_run]
  rcases ran : step b with ⟨failure | a, between⟩
  · exact .inl ⟨failure, by rw [ran] at same; exact congrArg _ same⟩
  · obtain rfl : between = b := by rw [ran] at same; exact same
    exact .inr ⟨a, ran, rfl⟩

theorem bind {next : α → LowerM β} (silent : Silent step) (each : ∀ a, Silent (next a)) :
    Silent (step >>= next) := by
  intro b
  rcases silent.bind_cases next b with ⟨failure, ran⟩ | ⟨a, -, ran⟩
  · rw [ran]
  · rw [ran]
    exact each a b

theorem ite {c : Prop} [Decidable c] {other : LowerM α} (yes : Silent step) (no : Silent other) :
    Silent (if c then step else other) := by
  split
  · exact yes
  · exact no

theorem draft : Silent Builder.draft := by
  rintro ⟨_ | ⟨d, rest⟩, mapped, unnamed⟩ <;> rfl

theorem graph : Silent Builder.graph :=
  .bind draft fun _ => .pure _

theorem proposal (v : Var) (before : String) : Silent (Builder.proposal v before) := by
  refine .bind draft fun d => ?_
  split
  · exact .pure _
  · exact .pure _
  · exact fun _ => rfl

theorem checkProposal (v : Var) (name : String) : Silent (Builder.checkProposal v name) :=
  .bind graph fun _ => .ite
    (.bind (.refuse _) fun _ => .ite (.bind (.refuse _) fun _ => .ite (.refuse _) (.pure _))
      (.ite (.refuse _) (.pure _)))
    (.ite (.bind (.refuse _) fun _ => .ite (.refuse _) (.pure _)) (.ite (.refuse _) (.pure _)))

theorem lookup? (v : Var) : Silent (Builder.lookup? v) := by
  refine .bind draft fun d => ?_
  split
  · exact .pure _
  · exact .ite (.bind (.refuse _) fun _ => .pure _) (.pure _)

end Silent

theorem mapVariable_cases (v : Var) (name : String) (b : Builder) :
    (∃ failure, mapVariable v name b = (.error failure, b)) ∨
      ∃ d rest mapped unnamed, b = ⟨d :: rest, mapped, unnamed⟩ ∧
        ((d.nameOf? v = some name ∧ mapVariable v name b = (.ok (), b)) ∨
          d.nameOf? v = none ∧ d.graph.arrays.contains name = true ∧
          mapVariable v name b = (.ok (), ⟨d.naming v name :: rest, mapped + 1, unnamed⟩)) := by
  rcases Silent.draft.bind_cases _ b with failed | ⟨d, found, ran⟩
  · exact .inl failed
  obtain ⟨_ | ⟨_, rest⟩, mapped, unnamed⟩ := b
  · cases found
  obtain ⟨rfl, -⟩ := gives_draft.mp found
  have run : mapVariable v name ⟨d :: rest, mapped, unnamed⟩ = _ := ran
  rw [run]
  cases known : d.nameOf? v with
  | some existing =>
    by_cases same : existing = name
    · subst same
      exact .inr ⟨d, rest, mapped, unnamed, rfl, .inl ⟨known, by simp; rfl⟩⟩
    · exact .inl ⟨_, by simp only [ne_eq, same, not_false_eq_true, if_true]; rfl⟩
  | none =>
    by_cases present : d.graph.arrays.contains name = true
    · by_cases reserved : Naming.isReserved name = true
      · exact .inl
          ⟨_,
            by
              simp only [present, reserved, Bool.not_true, Bool.false_eq_true, if_false, if_true]
              rfl⟩
      · exact .inr ⟨d, rest, mapped, unnamed, rfl,
          .inr ⟨known,
            present,
            by simp only [present, reserved, Bool.not_true, Bool.false_eq_true, if_false]; rfl⟩⟩
    · exact .inl ⟨_, by simp only [present, Bool.not_false, if_true]; rfl⟩

-- Adds an array to the innermost draft and records the variable; takes the array away again if that
-- fails.
def installArray (v : Var) (name : String) (array : Descriptor) (record : Bool) : LowerM String :=
    do
  changeGraph fun g => g.addArray name array
  if record then
    match ← attempt (mapVariable v name) with
    | .ok () => pure ()
    | .error failure =>
      changeGraph fun g => .ok (g.removeArray name)
      throw failure
  return name

theorem addArray_eq (v : Var) (before : String) (record : Bool) :
    addArray v before record = if v.isDropped then refuse
      (.naming "can not create an array for a drop variable")
      else proposal v before >>= fun proposed => checkProposal v (before ++ proposed) >>= fun _ =>
        Builder.lift (Descriptor.dense (arrayShape v) v.elem) >>= fun array => installArray v
          (before ++ proposed) array record := by
  unfold addArray
  by_cases dropped : v.isDropped = true
  · rw [if_pos dropped, if_pos dropped]
    rfl
  · rw [if_neg dropped, if_neg dropped]
    rfl

variable {rest : List Draft} {mapped unnamed : Nat}

-- An array for a variable is added, or nothing happens. A recorded variable had no array before:
-- with one, the mapping would have to change.
theorem enter_cases (v : Var) (array : Descriptor) (record : Bool) (grounded : d.Grounded)
    (free : d.graph.arrays.contains name = false) :
    (∃ failure, installArray v name array record ⟨d :: rest, mapped, unnamed⟩ =
      (.error failure, ⟨d :: rest, mapped, unnamed⟩)) ∨
      record = false ∧ installArray v name array record ⟨d :: rest, mapped, unnamed⟩ =
      (.ok name, ⟨d.withArray name array :: rest, mapped, unnamed⟩) ∨ d.nameOf? v = none ∧
        installArray v name array record ⟨d :: rest, mapped, unnamed⟩ =
        (.ok name, ⟨(d.withArray name array).naming v name :: rest, mapped + 1, unnamed⟩) := by
  have added : changeGraph (fun g => g.addArray name array) ⟨d :: rest, mapped, unnamed⟩ = (.ok (),
    ⟨d.withArray name array :: rest, mapped, unnamed⟩) :=
    gives_changeGraph.mpr ⟨_, by simp [Graph.addArray, free], rfl⟩
  rw [installArray, bind_run, added]
  cases record with
  | false => exact .inr (.inl ⟨rfl, rfl⟩)
  | true =>
    have unknown : d.nameOf? v ≠ some name := fun known => by
      simp [grounded.named v name known] at free
    have recorded (outcome : Outcome Unit) (b' : Builder)
      (ran : mapVariable v name ⟨d.withArray name array :: rest, mapped, unnamed⟩ = (outcome, b')) :
        attempt (mapVariable v name) ⟨d.withArray name array :: rest, mapped, unnamed⟩ =
        (.ok outcome, b') := by
      simp only [attempt, ran]
    rcases mapVariable_cases v name ⟨d.withArray name array :: rest, mapped, unnamed⟩ with
      ⟨failure, failed⟩ | ⟨d', rest', _, _, same, ⟨known, -⟩ | ⟨new, -, ran⟩⟩
    · refine .inl ⟨failure, ?_⟩
      have removed : changeGraph (fun g => .ok (g.removeArray name))
        ⟨d.withArray name array :: rest, mapped, unnamed⟩ = (.ok (),
          ⟨d :: rest, mapped, unnamed⟩) :=
        gives_changeGraph.mpr ⟨_, rfl, by rw [Draft.removeArray_withArray grounded free]⟩
      simp only [if_true, bind_run, recorded _ _ failed, removed]
      rfl
    · cases same
      exact absurd known unknown
    · cases same
      refine .inr (.inr ⟨new, ?_⟩)
      simp only [if_true, bind_run, recorded _ _ ran]
      rfl

theorem addArray_cases (v : Var) (before : String) (record : Bool) (grounded : b.Grounded) :
    (∃ failure, addArray v before record b = (.error failure, b)) ∨
      ∃ d rest mapped unnamed name array, b = ⟨d :: rest, mapped, unnamed⟩ ∧
        (record = false ∧ addArray v before record b =
          (.ok name, ⟨d.withArray name array :: rest, mapped, unnamed⟩) ∨
          d.nameOf? v = none ∧ addArray v before record b =
          (.ok name, ⟨(d.withArray name array).naming v name :: rest, mapped + 1, unnamed⟩)) := by
  rw [addArray_eq]
  by_cases dropped : v.isDropped = true
  · rw [if_pos dropped]
    exact .inl ⟨_, rfl⟩
  rw [if_neg dropped]
  rcases (Silent.proposal v before).bind_cases _ b with failed | ⟨proposed, asked, ran⟩
  · exact .inl failed
  rw [ran]
  rcases (Silent.checkProposal v (before ++ proposed)).bind_cases _ b with failed | ⟨_, free, ran⟩
  · exact .inl failed
  rw [ran]
  rcases (Silent.lift (Descriptor.dense (arrayShape v) v.elem)).bind_cases _ b with
    failed | ⟨array, -, ran⟩
  · exact .inl failed
  rw [ran]
  obtain ⟨_ | ⟨d, rest⟩, mapped, unnamed⟩ := b
  · cases free
  rcases enter_cases v array record (grounded d mem_cons_self)
    (gives_checkProposal.mp free).1.1 with failed | entered
  · exact .inl failed
  · exact .inr ⟨d, rest, mapped, unnamed, _, array, rfl, entered⟩

def Keeps (b b' : Builder) : Prop :=
  List.Forall₂ Draft.KeepsNames b.drafts b'.drafts

namespace Keeps

theorem of_drafts {b' : Builder} (same : b'.drafts = b.drafts) : b.Keeps b' := by
  rw [Keeps, same]
  exact forall₂_same.mpr fun _ _ _ _ named => named

theorem innermost {d' : Draft} {mapped' unnamed' : Nat} (kept : d.KeepsNames d') :
    Keeps ⟨d :: rest, mapped, unnamed⟩ ⟨d' :: rest, mapped', unnamed'⟩ :=
  .cons kept (forall₂_same.mpr fun _ _ _ _ named => named)

theorem trans {b₁ b₂ : Builder} (first : b.Keeps b₁) (second : b₁.Keeps b₂) : b.Keeps b₂ := by
  refine (Outcome.forall₂_comp.mpr ⟨_, first, second⟩).imp ?_
  rintro d d' ⟨_, kept, kept'⟩ v name named
  exact kept' v name (kept v name named)

end Keeps

-- A step that leaves drafts grounded and takes no variable its array, whether it succeeds or not.
def Careful (step : LowerM α) : Prop :=
  ∀ b, b.Grounded → (step b).2.Grounded ∧ b.Keeps (step b).2

namespace Careful

variable {step : LowerM α}

theorem silent (silent : Silent step) : Careful step := by
  intro b grounded
  rw [silent b]
  exact ⟨grounded, .of_drafts rfl⟩

theorem bind {next : α → LowerM β} (first : Careful step) (second : ∀ a, Careful (next a)) :
    Careful (step >>= next) := by
  intro b grounded
  obtain ⟨between, kept⟩ := first b grounded
  rw [bind_run]
  rcases ran : step b with ⟨failure | a, b₁⟩
  · rw [ran] at between kept
    exact ⟨between, kept⟩
  · rw [ran] at between kept
    obtain ⟨last, kept'⟩ := second a b₁ between
    exact ⟨last, kept.trans kept'⟩

theorem ite {c : Prop} [Decidable c] {other : LowerM α} (yes : Careful step) (no : Careful other) :
    Careful (if c then step else other) := by
  split
  · exact yes
  · exact no

theorem guarded {c : Prop} [Decidable c] {cause : Error} {next : PUnit → LowerM α}
    (careful : Careful (next ⟨⟩)) :
    Careful (if c then (TraceFlow.refuse cause >>= next) else next ⟨⟩) :=
  .ite (.bind (.silent (.refuse cause)) fun _ => careful) careful

theorem innermost {d' : Draft} {mapped' unnamed' : Nat}
    (grounded : Builder.Grounded ⟨d :: rest, mapped, unnamed⟩) (inner : d'.Grounded)
    (kept : d.KeepsNames d') : Builder.Grounded ⟨d' :: rest, mapped', unnamed'⟩ ∧
    Keeps ⟨d :: rest, mapped, unnamed⟩ ⟨d' :: rest, mapped', unnamed'⟩ :=
  ⟨forall_mem_cons.mpr ⟨inner, (forall_mem_cons.mp grounded).2⟩, .innermost kept⟩

theorem reading {next : Draft → LowerM α}
    (each : ∀ d rest mapped unnamed, Builder.Grounded ⟨d :: rest, mapped, unnamed⟩ →
      (next d ⟨d :: rest, mapped, unnamed⟩).2.Grounded ∧ Keeps ⟨d :: rest, mapped, unnamed⟩
        (next d ⟨d :: rest, mapped, unnamed⟩).2) : Careful (draft >>= next) := by
  rintro ⟨_ | ⟨d, rest⟩, mapped, unnamed⟩ grounded
  · exact ⟨grounded, .of_drafts rfl⟩
  · exact each d rest mapped unnamed grounded

theorem mapVariable (v : Var) (name : String) : Careful (Builder.mapVariable v name) := by
  intro b grounded
  rcases mapVariable_cases v name b with ⟨failure, ran⟩ | ⟨d, rest, mapped, unnamed, rfl,
    ⟨-, ran⟩ | ⟨new, present, ran⟩⟩
  · rw [ran]
    exact ⟨grounded, .of_drafts rfl⟩
  · rw [ran]
    exact ⟨grounded, .of_drafts rfl⟩
  · rw [ran]
    exact innermost grounded ((grounded d mem_cons_self).naming present v)
      (d.keepsNames_naming new name)

theorem addArray (v : Var) (before : String) (record : Bool) :
    Careful (Builder.addArray v before record) := by
  intro b grounded
  rcases addArray_cases v before record grounded with ⟨failure, ran⟩ | ⟨d, rest, mapped, unnamed,
    name, array, rfl, ⟨-, ran⟩ | ⟨new, ran⟩⟩
  · rw [ran]
    exact ⟨grounded, .of_drafts rfl⟩
  · rw [ran]
    exact innermost grounded ((grounded d mem_cons_self).withArray name array) fun _ _ named =>
      named
  · rw [ran]
    have present : (d.withArray name array).graph.arrays.contains name = true := by
      simp [Draft.withArray, Dict.contains]
    exact innermost grounded (((grounded d mem_cons_self).withArray name array).naming present v)
      (Draft.keepsNames_naming new name)

theorem append (label? : Option String) (guard? : Option Guard) (assignments : Dict Binding)
    (after? : Option Nat) : Careful (Builder.append label? guard? assignments after?) := by
  -- The label is the only thing that is looked at before the draft.
  unfold Builder.append
  rcases label? with _ | label
  on_goal 1 => refine .reading ?_
  on_goal 2 => refine .guarded (.reading ?_)
  all_goals
    intro d rest mapped unnamed grounded
    have inner := grounded d mem_cons_self
    dsimp only
    split
    · exact ⟨grounded, .of_drafts rfl⟩
    · exact innermost grounded ⟨inner.constants, inner.named⟩ fun _ _ named => named

theorem resolveAtom (options : ResolveOptions) (atom : Atom) :
    Careful (Builder.resolveAtom options atom) := by
  cases atom with
  | literal s => exact .ite (.silent (.pure _)) (.silent (.refuse _))
  | var v =>
    refine .bind (.bind (.silent (.lookup? v)) fun found? => ?_) fun _ => .silent (.pure _)
    cases found? with
    | none => exact .guarded (addArray v _ _)
    | some name => exact .guarded (.silent (.pure _))

theorem resolve (options : ResolveOptions) (atoms : List Atom) :
    Careful (Builder.resolve options atoms) := by
  have all : Careful (resolveAll options atoms) := by
    induction atoms with
    | nil => exact .silent (.pure _)
    | cons atom rest ih =>
      exact .bind (resolveAtom options atom) fun _ => .bind ih fun _ => .silent (.pure _)
  unfold Builder.resolve
  exact .guarded all

end Careful

end Builder

inductive Call
  | push (name? : Option String)
  | pop
  | append (label? : Option String) (guard? : Option Guard) (assignments : Dict Binding)
    (after? : Option Nat)
  | addArray (v : Var) (before : String) (record : Bool)
  | mapVariable (v : Var) (name : String)
  | resolve (options : ResolveOptions) (atoms : List Atom)
  | lower (f : Lambda) (name? : Option String)

namespace Call

def run (b : Builder) : Call → Builder
  | push name? => (Builder.push name? b).2
  | pop => (Builder.pop b).2
  | append label? guard? assignments after? => (Builder.append label? guard? assignments after? b).2
  | addArray v before record => (Builder.addArray v before record b).2
  | mapVariable v name => (Builder.mapVariable v name b).2
  | resolve options atoms => (Builder.resolve options atoms b).2
  | lower f name? => (Lowering.lower .builtin f name? b).2

def runAll (unnamed : Nat) (history : List Call) : Builder :=
  history.foldl run (.new unnamed)

theorem grounded_run (call : Call) (grounded : b.Grounded) : (call.run b).Grounded := by
  have fresh (name : String) : (Draft.new name).Grounded := by
    refine ⟨fun _ present => ?_, fun _ _ named => ?_⟩
    · cases present
    · cases named
  cases call with
  | push name? =>
    cases name? with
    | none => exact forall_mem_cons.mpr ⟨fresh _, grounded⟩
    | some name =>
      by_cases valid : Naming.isIdentifier name = true
      · simp only [run, Builder.push, valid, if_true]
        exact forall_mem_cons.mpr ⟨fresh name, grounded⟩
      · simp only [run, Builder.push, valid]
        exact grounded
  | pop =>
    obtain ⟨_ | ⟨d, _ | ⟨outer, rest⟩⟩, mapped, unnamed⟩ := b
    · exact grounded
    · exact forall_mem_nil _
    · exact (forall_mem_cons.mp grounded).2
  | append label? guard? assignments after? =>
    exact (Careful.append label? guard? assignments after? b grounded).1
  | addArray v before record => exact (Careful.addArray v before record b grounded).1
  | mapVariable v name => exact (Careful.mapVariable v name b grounded).1
  | resolve options atoms => exact (Careful.resolve options atoms b grounded).1
  | lower f name? =>
    have same : (Lowering.lower .builtin f name? b).2.drafts = b.drafts :=
      Lowering.toolkit_lower_stack _ f name? b
    rw [Builder.Grounded, run, same]
    exact grounded

theorem grounded_runAll (unnamed : Nat) (history : List Call) : (runAll unnamed history).Grounded :=
  List.foldlRecOn history run (forall_mem_nil _) fun _ grounded call _ => grounded_run call grounded

theorem keeps_run (call : Call) (grounded : b.Grounded)
    (inner : (call matches .push _ | .pop) = false) : b.Keeps (call.run b) := by
  cases call with
  | push name? => cases inner
  | pop => cases inner
  | append label? guard? assignments after? =>
    exact (Careful.append label? guard? assignments after? b grounded).2
  | addArray v before record => exact (Careful.addArray v before record b grounded).2
  | mapVariable v name => exact (Careful.mapVariable v name b grounded).2
  | resolve options atoms => exact (Careful.resolve options atoms b grounded).2
  | lower f name? => exact .of_drafts (Lowering.toolkit_lower_stack _ f name? b)

theorem all_or_nothing (unnamed : Nat) (history : List Call) :
    (∀ v before record failure, (Builder.addArray v before record (runAll unnamed history)).1 =
      .error failure →
      (Builder.addArray v before record (runAll unnamed history)).2 = runAll unnamed history) ∧
    (∀ v name failure, (Builder.mapVariable v name (runAll unnamed history)).1 = .error failure →
      (Builder.mapVariable v name (runAll unnamed history)).2 = runAll unnamed history) ∧
    (∀ d rest v, (runAll unnamed history).drafts = d :: rest → (d.nameOf? v).isSome = true →
      ∀ before, ∃ failure, Builder.addArray v before true
        (runAll unnamed history) = (.error failure, runAll unnamed history)) ∧
    ∀ call : Call, (call matches .push _ | .pop) = false →
      List.Forall₂ Draft.KeepsNames (runAll unnamed history).drafts
        (call.run (runAll unnamed history)).drafts := by
  have grounded := grounded_runAll unnamed history
  generalize runAll unnamed history = b at grounded
  refine ⟨?_, ?_, ?_, fun call inner => keeps_run call grounded inner⟩
  · intro v before record failure failed
    rcases addArray_cases v before record grounded with ⟨_, ran⟩ | ⟨d, rest, mapped, unnamed, name,
      array, rfl, ⟨-, ran⟩ | ⟨-, ran⟩⟩
    · rw [ran]
    · rw [ran] at failed
      cases failed
    · rw [ran] at failed
      cases failed
  · intro v name failure failed
    rcases mapVariable_cases v name b with ⟨_, ran⟩ | ⟨d, rest, mapped, unnamed, rfl,
      ⟨-, ran⟩ | ⟨-, -, ran⟩⟩
    · rw [ran]
    · rw [ran]
    · rw [ran] at failed
      cases failed
  · intro d rest v top known before
    rcases addArray_cases v before true grounded with failed | ⟨d', rest', mapped, unnamed, name,
      array, rfl, ⟨unrecorded, -⟩ | ⟨new, -⟩⟩
    · exact failed
    · cases unrecorded
    · cases top
      rw [new] at known
      cases known

end Call

end TraceFlow
