import Mathlib.Data.List.Forall2
import TraceFlow.Word

set_option autoImplicit false

namespace TraceFlow.Outcome

variable {α β : Type}

variable {b y : β} {xs : List α} {f : α → Outcome β} {ys : List β}

@[simp] theorem ok_bind (a : α) (next : α → Outcome β) : ((.ok a : Outcome α) >>= next) = next a :=
    rfl

@[simp] theorem error_bind (failure : Failure) (next : α → Outcome β) :
    ((.error failure : Outcome α) >>= next) = .error failure := rfl

@[simp] theorem pure_eq (a : α) : (pure a : Outcome α) = .ok a := rfl

theorem bind_eq_ok {step : Outcome α} {next : α → Outcome β} : (step >>= next) = .ok b ↔
    ∃ a, step = .ok a ∧ next a = .ok b := by
  cases step with
  | ok a => simp
  | error failure => simp

theorem toOption_bind (step : Outcome α) (next : α → Outcome β) :
    (step >>= next).toOption = step.toOption.bind fun a => (next a).toOption := by
  cases step <;> rfl

theorem unless_eq_ok {c : Prop} [Decidable c] {cause : Error} {next : PUnit → Outcome β} :
    (if c then (refuse cause >>= next) else next ⟨⟩) = .ok b ↔ ¬ c ∧ next ⟨⟩ = .ok b := by
  by_cases fails : c
  · simp only [fails, if_true, not_true_eq_false, false_and, iff_false, bind_eq_ok]
    rintro ⟨_, ⟨⟩, -⟩
  · simp [fails]

-- What is refused is shown in the reason.
theorem unlessShown_eq_ok {c : Prop} [Decidable c] {shown : Outcome α} {cause : α → Error}
    {next : PUnit → Outcome β} :
    (if c then (shown >>= fun text => refuse (cause text) >>= next) else next ⟨⟩) = .ok b ↔ ¬ c ∧
    next ⟨⟩ = .ok b := by
  by_cases fails : c
  · simp only [fails, if_true, not_true_eq_false, false_and, iff_false, bind_eq_ok]
    rintro ⟨_, _, _, ⟨⟩, -⟩
  · simp [fails]

theorem ite_eq_ok {c : Prop} [Decidable c] {a a' : α} {failure : Failure} :
    (if c then (.ok a : Outcome α) else .error failure) = .ok a' ↔ c ∧ a = a' := by
  by_cases holds : c <;> simp [holds]

theorem forM_eq_ok {check : α → Outcome Unit} : xs.forM check = .ok () ↔ ∀ x ∈ xs,
    check x = .ok () := by
  induction xs with
  | nil => simp
  | cons x rest ih =>
    simp only [List.forM_eq_forM, List.forM_cons, bind_eq_ok, List.mem_cons,
      forall_eq_or_imp] at ih ⊢
    constructor
    · rintro ⟨⟨⟩, first, others⟩
      exact ⟨first, ih.1 others⟩
    · rintro ⟨first, others⟩
      exact ⟨(), first, ih.2 others⟩

theorem mapM_eq_ok : xs.mapM f = .ok ys ↔ List.Forall₂ (fun x y => f x = .ok y) xs ys := by
  induction xs generalizing ys with
  | nil => simp [eq_comm]
  | cons x rest ih =>
    simp only [List.mapM_cons, bind_eq_ok, ih, pure_eq, Except.ok.injEq]
    constructor
    · rintro ⟨y, head, tail, related, rfl⟩
      exact .cons head related
    · rintro (_ | ⟨head, related⟩)
      exact ⟨_, head, _, related, rfl⟩

theorem forall₂_comp {γ : Type} {r : α → β → Prop} {s : β → γ → Prop} {zs : List γ} :
    List.Forall₂ (fun x z => ∃ y, r x y ∧ s y z) xs zs ↔ ∃ ys, List.Forall₂ r xs ys ∧
    List.Forall₂ s ys zs := by
  constructor
  · intro all
    induction all with
    | nil => exact ⟨[], .nil, .nil⟩
    | cons head _ ih =>
      obtain ⟨y, first, second⟩ := head
      obtain ⟨ys, firsts, seconds⟩ := ih
      exact ⟨y :: ys, .cons first firsts, .cons second seconds⟩
  · rintro ⟨ys, firsts, seconds⟩
    induction firsts generalizing zs with
    | nil =>
      cases seconds
      exact .nil
    | cons first _ ih =>
      obtain _ | ⟨second, seconds⟩ := seconds
      exact .cons ⟨_, first, second⟩ (ih seconds)

def Succeeds (o : Outcome α) : Prop :=
  ∃ a, o = .ok a

@[simp] theorem succeeds_ok (a : α) : Succeeds (.ok a : Outcome α) := ⟨a, rfl⟩

@[simp] theorem not_succeeds_error (failure : Failure) :
    ¬ Succeeds (.error failure : Outcome α) := by
  rintro ⟨a, absurd⟩
  cases absurd

instance (o : Outcome α) : Decidable o.Succeeds :=
  match o with
  | .ok a => .isTrue (succeeds_ok a)
  | .error failure => .isFalse (not_succeeds_error failure)

theorem succeeds_mapM : (xs.mapM f).Succeeds ↔ ∀ x ∈ xs, (f x).Succeeds := by
  induction xs with
  | nil => simp
  | cons x rest ih =>
    simp only [List.mapM_cons, List.mem_cons, forall_eq_or_imp, ← ih]
    cases f x with
    | error failure => simp
    | ok y => cases rest.mapM f <;> simp

theorem exists_mapM {related : α → β → Prop} (each : ∀ x ∈ xs, ∃ y, f x = .ok y ∧ related x y) :
    ∃ ys, xs.mapM f = .ok ys ∧ List.Forall₂ related xs ys := by
  induction xs with
  | nil => exact ⟨[], rfl, .nil⟩
  | cons x rest ih =>
    obtain ⟨y, first, here⟩ := each x List.mem_cons_self
    obtain ⟨ys, others, there⟩ := ih fun other member => each other (List.mem_cons_of_mem x member)
    exact ⟨y :: ys, by simp [List.mapM_cons, first, others], .cons here there⟩

def FailsBy {α : Type} (allowed : Failure → Prop) (o : Outcome α) : Prop :=
  ∀ failure, o = .error failure → allowed failure

namespace FailsBy

variable {allowed : Failure → Prop} {o : Outcome α} {next : α → Outcome β}

theorem ok (a : α) : FailsBy allowed (.ok a) := by
  rintro failure ⟨⟩

theorem error {failure : Failure} (holds : allowed failure) : FailsBy allowed
    (.error failure : Outcome α) := by
  rintro _ ⟨⟩
  exact holds

theorem bind (first : FailsBy allowed o) (second : ∀ a, o = .ok a → FailsBy allowed (next a)) :
    FailsBy allowed (o >>= next) := by
  cases ran : o with
  | error failure => exact error (first failure ran)
  | ok a => exact second a ran

theorem andThen (first : FailsBy allowed o) (second : ∀ a, FailsBy allowed (next a)) :
    FailsBy allowed (o >>= next) :=
  first.bind fun a _ => second a

theorem mapM (each : ∀ x ∈ xs, FailsBy allowed (f x)) : FailsBy allowed (xs.mapM f) := by
  induction xs with
  | nil => exact ok _
  | cons x rest ih =>
    rw [List.mapM_cons]
    refine (each x List.mem_cons_self).andThen fun y => ?_
    exact (ih fun other member => each other (List.mem_cons_of_mem x member)).andThen fun ys => ok _

end FailsBy

-- Two outcomes that both fail, or both have a result and these are related.
inductive Both {α β : Type} (related : α → β → Prop) : Outcome α → Outcome β → Prop
  | fails (failure failure' : Failure) : Both related (.error failure) (.error failure')
  | gives {a : α} {b : β} : related a b → Both related (.ok a) (.ok b)

namespace Both

variable {γ δ : Type} {related : α → β → Prop} {related' : γ → δ → Prop}

variable {o : Outcome α} {o' p' : Outcome β}

variable (both : Both related o o')

include both

theorem bind {next : α → Outcome γ} {next' : β → Outcome δ}
    (each : ∀ a b, related a b → Both related' (next a) (next' b)) :
    Both related' (o >>= next) (o' >>= next') := by
  cases both with
  | fails failure failure' => exact .fails failure failure'
  | gives holds => exact each _ _ holds

theorem imp {weaker : α → β → Prop} (implies : ∀ a b, related a b → weaker a b) :
    Both weaker o o' := by
  cases both with
  | fails failure failure' => exact .fails failure failure'
  | gives holds => exact .gives (implies _ _ holds)

theorem symm : Both (fun b a => related a b) o' o := by
  cases both with
  | fails failure failure' => exact .fails failure' failure
  | gives holds => exact .gives holds

theorem trans {related'' : β → γ → Prop} {o'' : Outcome γ} (both' : Both related'' o' o'') :
    Both (fun a c => ∃ b, related a b ∧ related'' b c) o o'' := by
  cases both with
  | fails failure failure' =>
    cases both'
    exact .fails _ _
  | gives holds =>
    cases both' with
    | gives holds' => exact .gives ⟨_, holds, holds'⟩

theorem known : Both (fun a b => related a b ∧ o = .ok a ∧ o' = .ok b) o o' := by
  cases both with
  | fails failure failure' => exact .fails failure failure'
  | gives holds => exact .gives ⟨holds, rfl, rfl⟩

theorem with_left {known : α → Prop} (each : ∀ a, o = .ok a → known a) :
    Both (fun a b => related a b ∧ known a) o o' :=
  both.known.imp fun a _ ⟨holds, made, _⟩ => ⟨holds, each a made⟩

omit both

theorem ite {c : Prop} [Decidable c] {o' : Outcome α} {p : Outcome β} (yes : c → Both related o p)
    (no : ¬ c → Both related o' p') : Both related (if c then o else o') (if c then p else p') := by
  by_cases holds : c
  · simpa [holds] using yes holds
  · simpa [holds] using no holds

theorem mapM {f : α → Outcome γ} {f' : β → Outcome δ}
    (all : List.Forall₂ (fun x y => Both related' (f x) (f' y)) xs ys) :
    Both (List.Forall₂ related') (xs.mapM f) (ys.mapM f') := by
  induction all with
  | nil => exact .gives .nil
  | cons head _ ih =>
    rw [List.mapM_cons, List.mapM_cons]
    exact head.bind fun a b first => ih.bind fun as bs rest => .gives (.cons first rest)

theorem succeeds_iff (both : Both related o o') : o.Succeeds ↔ o'.Succeeds := by
  cases both <;> simp

theorem of_iff (either : o.Succeeds ↔ o'.Succeeds)
    (results : ∀ a b, o = .ok a → o' = .ok b → related a b) : Both related o o' := by
  cases o with
  | error failure =>
    cases o' with
    | error failure' => exact .fails failure failure'
    | ok b => simp at either
  | ok a =>
    cases o' with
    | error failure' => simp at either
    | ok b => exact .gives (results a b rfl rfl)

theorem of_ok (both : Both related o o') {a : α} (result : o = .ok a) :
    ∃ b, o' = .ok b ∧ related a b := by
  subst result
  cases both with
  | gives holds => exact ⟨_, rfl, holds⟩

theorem to_ok (both : Both related o o') (result : o' = .ok b) : ∃ a, o = .ok a ∧ related a b := by
  subst result
  cases both with
  | gives holds => exact ⟨_, rfl, holds⟩

theorem of_exists (forth : ∀ a, o = .ok a → ∃ b, o' = .ok b ∧ related a b)
    (back : ∀ b, o' = .ok b → o.Succeeds) : Both related o o' := by
  cases o with
  | ok a =>
    obtain ⟨b, rfl, holds⟩ := forth a rfl
    exact .gives holds
  | error failure =>
    cases o' with
    | error failure' => exact .fails failure failure'
    | ok b => exact absurd (back b rfl) (not_succeeds_error failure)

theorem of_not (fails : ¬ o.Succeeds) (fails' : ¬ o'.Succeeds) : Both related o o' :=
  .of_iff (iff_of_false fails fails') fun a _ result => (fails ⟨a, result⟩).elim

theorem refl (o : Outcome α) : Both Eq o o := by
  cases o with
  | error failure => exact .fails failure failure
  | ok a => exact .gives rfl

theorem of_toOption {o' : Outcome α} (same : o.toOption = o'.toOption) : Both Eq o o' := by
  cases o <;> cases o' <;> cases same
  · exact .fails _ _
  · exact .gives rfl

theorem toOption_eq {o' : Outcome α} (both : Both Eq o o') : o.toOption = o'.toOption := by
  cases both with
  | fails failure failure' => rfl
  | gives same => rw [same]

theorem seq {o' : Outcome α} {next : α → Outcome γ} {next' : α → Outcome δ} (both : Both Eq o o')
    (each : ∀ a, Both related' (next a) (next' a)) : Both related' (o >>= next) (o' >>= next') :=
  both.bind fun a _ same => same ▸ each a

theorem congr {p : Outcome α} (both : Both related o o') (left : Both Eq p o)
    (right : Both Eq p' o') : Both related p p' := by
  cases both with
  | fails =>
    cases left
    cases right
    exact .fails _ _
  | gives holds =>
    obtain _ | rfl := left
    obtain _ | rfl := right
    exact .gives holds

end Both

variable {related : α → β → Prop} (all : List.Forall₂ related xs ys)

include all

theorem rel_getElem? (i : Nat) : Option.Rel related xs[i]? ys[i]? := by
  induction all generalizing i with
  | nil => exact .none
  | cons head _ ih =>
    cases i with
    | zero => exact .some head
    | succ i => exact ih i

theorem exists_of_forall₂ {i : Nat} (found : ys[i]? = some y) : ∃ x, xs[i]? = some x ∧
    related x y := by
  have places := rel_getElem? all i
  rw [found] at places
  generalize xs[i]? = x? at places
  cases places with
  | some holds => exact ⟨_, rfl, holds⟩

theorem forall₂_left {x : α} (member : x ∈ xs) : ∃ y ∈ ys, related x y := by
  obtain ⟨i, found⟩ := List.getElem?_of_mem member
  obtain ⟨y, known, holds⟩ := exists_of_forall₂ all.flip found
  exact ⟨y, List.mem_of_getElem? known, holds⟩

theorem forall₂_right (member : y ∈ ys) : ∃ x ∈ xs, related x y := by
  obtain ⟨x, known, holds⟩ := forall₂_left all.flip member
  exact ⟨x, known, holds⟩

end TraceFlow.Outcome

namespace TraceFlow

def Failure.kind : Failure → String
  | .fault _ => "Panic"
  | .error cause => cause.kind

namespace Outcome

variable {α β γ δ : Type}

-- Two outcomes that fail in the same way, or have related results.
inductive Likewise (related : α → β → Prop) : Outcome α → Outcome β → Prop
  | fails {failure failure' : Failure} : failure'.kind = failure.kind →
    Likewise related (.error failure) (.error failure')
  | gives {a : α} {b : β} : related a b → Likewise related (.ok a) (.ok b)

namespace Likewise

variable {c : Prop} {related : α → β → Prop} {related' : γ → δ → Prop}

variable {o : Outcome α} {o' : Outcome β} {next : α → Outcome γ} {further : α → γ → Prop}

theorem bind {next' : β → Outcome δ} (first : Likewise related o o')
    (second : ∀ a b, related a b → Likewise related' (next a) (next' b)) :
    Likewise related' (o >>= next) (o' >>= next') := by
  cases first with
  | fails same => exact .fails same
  | gives holds => exact second _ _ holds

theorem imp {weaker : α → β → Prop} (likewise : Likewise related o o')
    (implies : ∀ a b, related a b → weaker a b) : Likewise weaker o o' := by
  cases likewise with
  | fails same => exact .fails same
  | gives holds => exact .gives (implies _ _ holds)

theorem refl {same : α → α → Prop} (each : ∀ a, same a a) (o : Outcome α) : Likewise same o o := by
  cases o with
  | error failure => exact .fails rfl
  | ok a => exact .gives (each a)

theorem of_eq {o' : Outcome α} (same : o = o') : Likewise Eq o o' :=
  same ▸ refl (fun _ => rfl) o

theorem seq {o' : Outcome α} {next' : α → Outcome δ} (first : Likewise Eq o o')
    (second : ∀ a, Likewise related' (next a) (next' a)) :
    Likewise related' (o >>= next) (o' >>= next') :=
  first.bind fun a _ same => same ▸ second a

theorem symm (likewise : Likewise related o o') : Likewise (fun b a => related a b) o' o := by
  cases likewise with
  | fails same => exact .fails same.symm
  | gives holds => exact .gives holds

theorem trans {further : β → γ → Prop} {o'' : Outcome γ} (first : Likewise related o o')
    (second : Likewise further o' o'') :
    Likewise (fun a c => ∃ b, related a b ∧ further b c) o o'' := by
  cases first with
  | fails same =>
    cases second with
    | fails same' => exact .fails (same'.trans same)
  | gives holds =>
    cases second with
    | gives holds' => exact .gives ⟨_, holds, holds'⟩

theorem to_ok {o' : Outcome α} (likewise : Likewise Eq o o') {a : α} (result : o = .ok a) :
    o' = .ok a := by
  subst result
  cases likewise with
  | gives same => rw [same]

theorem with_right (likewise : Likewise related o o') :
    Likewise (fun a b => related a b ∧ o' = .ok b) o o' := by
  cases likewise with
  | fails same => exact .fails same
  | gives holds => exact .gives ⟨holds, rfl⟩

theorem map_right {f : β → γ} (likewise : Likewise related o o')
    (holds : ∀ a b, related a b → further a (f b)) : Likewise further o (do return f (← o')) := by
  cases likewise with
  | fails same => exact .fails same
  | gives given => exact .gives (holds _ _ given)

theorem of_error {failure : Failure} (likewise : Likewise related o (.error failure)) :
    Likewise further o (.error failure) := by
  cases likewise with
  | fails same => exact .fails same

theorem ite [Decidable c] {p : Outcome α} {p' : Outcome β} (yes : c → Likewise related o o')
    (no : ¬ c → Likewise related p p') :
    Likewise related (if c then o else p) (if c then o' else p') := by
  by_cases holds : c
  · simpa [holds] using yes holds
  · simpa [holds] using no holds

theorem forM {items : List α} {f g : α → Outcome PUnit}
    (each : ∀ a ∈ items, Likewise Eq (f a) (g a)) : Likewise Eq (items.forM f) (items.forM g) := by
  induction items with
  | nil => exact .gives rfl
  | cons item rest ih =>
    refine (each item List.mem_cons_self).bind fun _ _ _ => ?_
    exact ih fun a member => each a (List.mem_cons_of_mem item member)

end Likewise

end Outcome

export Outcome (bind_eq_ok ite_eq_ok mapM_eq_ok ok_bind unless_eq_ok unlessShown_eq_ok)

end TraceFlow
