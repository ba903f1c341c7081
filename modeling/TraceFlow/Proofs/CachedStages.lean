import TraceFlow.Proofs.CacheHistory
import TraceFlow.Proofs.Compilation
import TraceFlow.Proofs.UniformStages

set_option autoImplicit false

namespace TraceFlow

open Outcome List

namespace StageCache

variable {α : Type} {key : StageKey} {value : α}

theorem find_some {c found : StageCache α} (hit : c.find key = (some value, found)) :
    (key, value) ∈ c.memory.entries ∧ ∀ entry ∈ found.memory.entries, entry ∈ c.memory.entries := by
  cases known : c.memory.find? key with
  | none => simp [find, Lru.use, known] at hit
  | some stored =>
    simp only [find, Lru.use, known, Prod.mk.injEq, Option.some.injEq] at hit
    obtain ⟨rfl, rfl⟩ := hit
    have member := Lru.mem_of_find? known
    refine ⟨member, fun entry listed => ?_⟩
    rcases mem_cons.mp listed with rfl | kept
    · exact member
    · exact (mem_filter.mp kept).1

end StageCache

-- A lowered function is a routine of this function for these arguments, from whatever numbers it
-- was made.
def Wrapped.Makes (w : Wrapped) (backends : Dict Backend) (specs : List ArgSpec) (l : Lowered) :
    Prop :=
  ∃ counter unnamed, w.routine backends counter unnamed specs = .ok (l.routine, l.backend)

-- Optimizes and compiles a lowered function, past the cache.
def Lowered.executable (l : Lowered) (options : Options) : Outcome Executable := do
  Executable.ofRoutine (← l.routine.optimized l.backend options) l.backend

namespace Session

-- What lowering changes in a session: the numbers it hands out and the record of what was traced.
structure Renumbers (s s' : Session) : Prop where
  rest : s' = { s with counter := s'.counter, unnamed := s'.unnamed, traced := s'.traced, stages :=
    s'.stages }
  stages : s.stages ≤ s'.stages

theorem finish_eq (w : Wrapped) (specs : List ArgSpec) (d : Draft) (s : Session) :
    (lift (d.toRoutine specs true) >>= fun routine => backend w.backend >>=
      fun backend => freshStage >>= fun id => pure ({ id, routine, backend } : Lowered)) s =
      match d.toRoutine specs true with
      | .error failure => (.error failure, s)
      | .ok routine =>
        match s.backends.get? w.backend with
        | some backend => (.ok ⟨s.stages, routine, backend⟩, { s with stages := s.stages + 1 })
        | none => (.error (.error (.unknownBackend w.backend s.backends.keys)), s) := by
  rw [bind_run, lift]
  cases d.toRoutine specs true with
  | error failure => rfl
  | ok routine =>
    have looked : backend w.backend s = match s.backends.get? w.backend with
        | some backend => (.ok backend, s)
        | none => (.error (.error (.unknownBackend w.backend s.backends.keys)), s) := by
      unfold backend
      rw [bind_run, get_run]
      dsimp only
      cases s.backends.get? w.backend <;> rfl
    simp only
    rw [bind_run, looked]
    cases s.backends.get? w.backend <;> rfl

theorem lowerAnew_eq (w : Wrapped) (specs : List ArgSpec) (s : Session) :
    (lowerAnew w specs s).1 = (w.routine s.backends s.counter s.unnamed
      specs).map (fun made => ⟨s.stages, made.1, made.2⟩) ∧
      Renumbers s (lowerAnew w specs s).2 ∧ ∀ l, (lowerAnew w specs s).1 = .ok l →
      (lowerAnew w specs s).2.stages = s.stages + 1 := by
  have began : lowerAnew w specs s = match w.trace specs s.counter with
      | (.error failure, counter) =>
        (.error failure, { s with traced := s.traced ++ [w.id], counter })
      | (.ok f, counter) => match Lowering.lower w.book f
        (w.name?.map Naming.sanitized) (.new s.unnamed) with
        | (.error failure, b) =>
          (.error failure, { s with traced := s.traced ++ [w.id], counter, unnamed := b.unnamed })
        | (.ok d, b) =>
          (lift (d.toRoutine specs true) >>= fun routine => backend w.backend >>=
            fun backend => freshStage >>= fun id =>
            pure ({ id, routine, backend } : Lowered)) { s with
              traced := s.traced ++ [w.id], counter, unnamed := b.unnamed } := by
    have traces : tracing (w.trace specs) { s with traced := s.traced ++ [w.id] } =
        ((w.trace specs s.counter).1, { s with traced := s.traced ++ [w.id], counter :=
          (w.trace specs s.counter).2 }) := rfl
    have builds (f : Lambda) (counter : Nat) : building (Lowering.lower w.book f
      (w.name?.map Naming.sanitized)) { s with traced := s.traced ++ [w.id], counter } =
        ((Lowering.lower w.book f (w.name?.map Naming.sanitized) (.new s.unnamed)).1, {
          s with traced := s.traced ++ [w.id], counter, unnamed :=
          (Lowering.lower w.book f (w.name?.map Naming.sanitized) (.new s.unnamed)).2.unnamed }) :=
          rfl
    show (tracing (w.trace specs) >>= _) { s with traced := s.traced ++ [w.id] } = _
    rw [bind_run, traces]
    rcases w.trace specs s.counter with ⟨failure | f, counter⟩
    · rfl
    simp only
    rw [bind_run, builds]
    rcases Lowering.lower w.book f (w.name?.map Naming.sanitized) (.new s.unnamed) with
      ⟨failure | d, b⟩ <;> rfl
  rw [began]
  unfold Wrapped.routine Wrapped.draft
  rcases w.trace specs s.counter with ⟨failure | f, counter⟩
  · exact ⟨rfl, ⟨rfl, le_refl _⟩, by rintro _ ⟨⟩⟩
  simp only [ok_bind]
  rcases Lowering.lower w.book f (w.name?.map Naming.sanitized) (.new s.unnamed) with
    ⟨failure | d, b⟩
  · exact ⟨rfl, ⟨rfl, le_refl _⟩, by rintro _ ⟨⟩⟩
  simp only [finish_eq, ok_bind]
  cases d.toRoutine specs true with
  | error failure => exact ⟨rfl, ⟨rfl, le_refl _⟩, by rintro _ ⟨⟩⟩
  | ok routine =>
    simp only [ok_bind]
    cases s.backends.get? w.backend with
    | none => exact ⟨rfl, ⟨rfl, le_refl _⟩, by rintro _ ⟨⟩⟩
    | some backend => exact ⟨rfl, ⟨rfl, Nat.le_succ _⟩, fun _ _ => rfl⟩

theorem compileAnew_ends (l : Lowered) (options : Options) (s : Session) :
    (compileAnew l options s).1 = (l.executable options).map
      (fun executable => ⟨s.programs, executable, options⟩) ∧
      (compileAnew l options s).2 = { s with programs :=
        (compileAnew l options s).2.programs } := by
  have steps : compileAnew l options s = match l.executable options with
      | .error failure => (.error failure, s)
      | .ok executable =>
        (.ok ⟨s.programs, executable, options⟩, { s with programs := s.programs + 1 }) := by
    unfold compileAnew Lowered.executable
    rw [bind_run, lift]
    cases l.routine.optimized l.backend options with
    | error failure => rfl
    | ok routine =>
      simp only [ok_bind]
      rw [bind_run, lift]
      cases Executable.ofRoutine routine l.backend <;> rfl
  rw [steps]
  cases l.executable options <;> exact ⟨rfl, rfl⟩

-- The caches hold what was made for their keys. All lowered functions there have been are known,
-- and no two of them have the same number.
structure Sound (s : Session) (wrapped : List Wrapped) (known : List Lowered) : Prop where
  wrapped_lt : ∀ w ∈ wrapped, w.id < s.stages
  wrapped_apart : ∀ w ∈ wrapped, ∀ w' ∈ wrapped, w'.id = w.id → w' = w
  known_lt : ∀ l ∈ known, l.id < s.stages
  known_apart : ∀ l ∈ known, ∀ l' ∈ known, l'.id = l.id → l' = l
  lowerings : ∀ entry ∈ s.lowerings.memory.entries, entry.1.stage < s.stages ∧ entry.2 ∈ known ∧
    ∀ w ∈ wrapped, ∀ specs, entry.1 = ⟨w.id, .args specs⟩ → w.Makes s.backends specs entry.2
  compilations : ∀ entry ∈ s.compilations.memory.entries, entry.1.stage < s.stages ∧
    ∀ l ∈ known, ∀ options, entry.1 = ⟨l.id, .options options⟩ →
    l.executable options = .ok entry.2.executable ∧ entry.2.options = options

structure Keeps (s s' : Session) : Prop where
  options : s'.options = s.options
  saved : s'.saved = s.saved
  book : s'.book = s.book
  backends : s'.backends = s.backends

variable {s s' : Session} {wrapped : List Wrapped} {known : List Lowered}

theorem Renumbers.keeps (renumbers : Renumbers s s') : Keeps s s' := by
  rw [renumbers.rest]
  exact ⟨rfl, rfl, rfl, rfl⟩

theorem Keeps.trans {s'' : Session} (first : Keeps s s') (second : Keeps s' s'') : Keeps s s'' :=
  ⟨second.options.trans first.options, second.saved.trans first.saved, second.book.trans first.book,
    second.backends.trans first.backends⟩

namespace Sound

variable {w : Wrapped} {l : Lowered}

theorem of_empty (lowerings : s.lowerings.size = 0) (compilations : s.compilations.size = 0) :
    s.Sound [] [] := by
  have none {α : Type} {c : StageCache α} (empty : c.size = 0) : c.memory.entries = [] :=
    length_eq_zero_iff.mp empty
  refine ⟨nofun, nofun, nofun, nofun, ?_, ?_⟩
  · rw [none lowerings]
    exact nofun
  · rw [none compilations]
    exact nofun

variable (sound : s.Sound wrapped known)

include sound

theorem weaken (stages : s.stages ≤ s'.stages) (backends : s'.backends = s.backends)
    (lowered : ∀ entry ∈ s'.lowerings.memory.entries, entry ∈ s.lowerings.memory.entries)
    (compiled : ∀ entry ∈ s'.compilations.memory.entries, entry ∈ s.compilations.memory.entries) :
    s'.Sound wrapped known where
  wrapped_lt w member := (sound.wrapped_lt w member).trans_le stages
  wrapped_apart := sound.wrapped_apart
  known_lt l member := (sound.known_lt l member).trans_le stages
  known_apart := sound.known_apart
  lowerings entry member := by
    obtain ⟨old, listed, made⟩ := sound.lowerings entry (lowered entry member)
    exact ⟨old.trans_le stages, listed, backends ▸ made⟩
  compilations entry member := by
    obtain ⟨old, made⟩ := sound.compilations entry (compiled entry member)
    exact ⟨old.trans_le stages, made⟩

theorem wraps (fresh : w.id = s.stages) : ({ s with stages := s.stages + 1 } : Session).Sound
    (wrapped ++ [w]) known := by
  have later : ({ s with stages := s.stages + 1 } : Session).Sound wrapped known :=
    sound.weaken (Nat.le_succ _) rfl (fun _ listed => listed) fun _ listed => listed
  have apart {w' : Wrapped} (listed : w' ∈ wrapped) : w'.id ≠ w.id := by
    have := sound.wrapped_lt w' listed
    omega
  refine { later with wrapped_lt := ?_, wrapped_apart := ?_, lowerings := ?_ }
  · intro w' member
    rcases mem_append.mp member with old | new
    · exact later.wrapped_lt w' old
    · obtain rfl := mem_singleton.mp new
      show w'.id < s.stages + 1
      omega
  · intro w₁ member₁ w₂ member₂ same
    rcases mem_append.mp member₁ with old₁ | new₁ <;> rcases mem_append.mp member₂ with old₂ | new₂
    · exact sound.wrapped_apart w₁ old₁ w₂ old₂ same
    · obtain rfl := mem_singleton.mp new₂
      exact absurd same.symm (apart old₁)
    · obtain rfl := mem_singleton.mp new₁
      exact absurd same (apart old₂)
    · rw [mem_singleton.mp new₁, mem_singleton.mp new₂]
  · intro entry listed
    obtain ⟨older, held, made⟩ := later.lowerings entry listed
    refine ⟨older, held, fun w' member specs same => ?_⟩
    rcases mem_append.mp member with old | new
    · exact made w' old specs same
    · obtain rfl := mem_singleton.mp new
      have number : entry.1.stage = w'.id := by rw [same]
      have before := (sound.lowerings entry listed).1
      omega

theorem stores_lowered (member : w ∈ wrapped) {specs : List ArgSpec} (fresh : l.id = s.stages)
    (makes : w.Makes s.backends specs l) (numbered : s'.stages = s.stages + 1) (rest : s' = { s with
      counter := s'.counter, unnamed := s'.unnamed, traced := s'.traced, stages := s'.stages }) :
    ({ s' with lowerings := s'.lowerings.insert ⟨w.id, .args specs⟩ l } : Session).Sound wrapped
      (l :: known) := by
  have older {n : Nat} (old : n < s.stages) : n < s'.stages := by omega
  have backends : s'.backends = s.backends := by rw [rest]
  have lowerings : s'.lowerings = s.lowerings := by rw [rest]
  have compilations : s'.compilations = s.compilations := by rw [rest]
  refine ⟨fun w member => older (sound.wrapped_lt w member), sound.wrapped_apart, ?_, ?_, ?_, ?_⟩
  · rintro l' (_ | ⟨_, listed⟩)
    · show l.id < s'.stages
      omega
    · exact older (sound.known_lt l' listed)
  · -- The number is new, so no other lowered function has it.
    have apart {l' : Lowered} (listed : l' ∈ known) : l'.id ≠ l.id := by
      have := sound.known_lt l' listed
      omega
    rintro l₁ (_ | ⟨_, listed₁⟩) l₂ (_ | ⟨_, listed₂⟩) same
    · rfl
    · exact absurd same (apart listed₂)
    · exact absurd same.symm (apart listed₁)
    · exact sound.known_apart l₁ listed₁ l₂ listed₂ same
  · rintro ⟨key, stored⟩ listed
    show key.stage < s'.stages ∧ stored ∈ l :: known ∧ ∀ w ∈ wrapped, ∀ specs,
      key = ⟨w.id, .args specs⟩ → w.Makes s'.backends specs stored
    rw [backends]
    have pushed : (key, stored) ∈ (s.lowerings.memory.push ⟨w.id, .args specs⟩ l).entries :=
      lowerings ▸ listed
    rcases StageCache.mem_push pushed with ⟨rfl, rfl⟩ | ⟨-, old⟩
    · refine ⟨older (sound.wrapped_lt w member), mem_cons_self, fun w' member' specs' same => ?_⟩
      obtain ⟨ids, described⟩ := StageKey.mk.inj same
      obtain rfl := sound.wrapped_apart w member w' member' ids.symm
      obtain rfl := CallKey.args.inj described
      exact makes
    · obtain ⟨earlier, known, made⟩ := sound.lowerings _ old
      exact ⟨older earlier, mem_cons_of_mem l known, made⟩
  · rintro ⟨key, stored⟩ listed
    obtain ⟨earlier, made⟩ := sound.compilations (key, stored) (compilations ▸ listed)
    refine ⟨older earlier, ?_⟩
    rintro l' (_ | ⟨_, known⟩) options same
    · have number : key.stage = l.id := by rw [show key = _ from same]
      have : key.stage < s.stages := earlier
      omega
    · exact made l' known options same

theorem stores_compiled (member : l ∈ known) {options : Options} {c : Compiled}
    (made : l.executable options = .ok c.executable) (under : c.options = options) :
    ({ s with compilations := s.compilations.insert ⟨l.id, .options options⟩ c } : Session).Sound
      wrapped known where
  wrapped_lt := sound.wrapped_lt
  wrapped_apart := sound.wrapped_apart
  known_lt := sound.known_lt
  known_apart := sound.known_apart
  lowerings := sound.lowerings
  compilations := by
    rintro ⟨key, stored⟩ listed
    have pushed : (key, stored) ∈ (s.compilations.memory.push ⟨l.id, .options options⟩ c).entries :=
      listed
    rcases StageCache.mem_push pushed with ⟨rfl, rfl⟩ | ⟨-, old⟩
    · refine ⟨sound.known_lt l member, fun l' member' options' same => ?_⟩
      obtain ⟨ids, set⟩ := StageKey.mk.inj same
      obtain rfl := sound.known_apart l member l' member' ids.symm
      obtain rfl := CallKey.options.inj set
      exact ⟨made, under⟩
    · exact sound.compilations _ old

theorem lower (member : w ∈ wrapped) (args : List Argument) :
    ∃ counter unnamed, ∃ known', (∀ l ∈ known, l ∈ known') ∧
    (Session.lower w args s).2.Sound wrapped known' ∧ Keeps s (Session.lower w args s).2 ∧
      Likewise (fun l made => made = (l.routine, l.backend) ∧ l ∈ known') (Session.lower w args s).1
        (describeCall args >>= w.routine s.backends counter unnamed) := by
  have steps : Session.lower w args s = match describeCall args with
      | .error failure => (.error failure, s)
      | .ok specs => loweringSlot.getOrMake ⟨w.id, .args specs⟩ (lowerAnew w specs) s := by
    unfold Session.lower
    rw [bind_run, lift]
    cases describeCall args <;> rfl
  rw [steps]
  cases describeCall args with
  | error failure =>
    exact ⟨0, 0, known, fun _ listed => listed, sound, ⟨rfl, rfl, rfl, rfl⟩, .fails rfl⟩
  | ok specs =>
    simp only [ok_bind]
    rcases looked : s.lowerings.find ⟨w.id, .args specs⟩ with ⟨_ | l, cache⟩
    · -- A miss: the function is lowered from the numbers at hand and stored.
      rw [StageCache.Slot.getOrMake_miss _ looked]
      have memory : cache.memory = s.lowerings.memory := by
        rw [(StageCache.find_eq_none looked).2]
      have missed : (loweringSlot.put cache s).Sound wrapped known :=
        sound.weaken (le_refl _) rfl (fun entry listed => memory ▸ listed) fun _ listed => listed
      obtain ⟨outcome, renumbers, numbered⟩ := lowerAnew_eq w specs (loweringSlot.put cache s)
      generalize lowerAnew w specs (loweringSlot.put cache s) = ran at outcome renumbers numbered
      obtain ⟨ended, after⟩ := ran
      dsimp only at outcome renumbers numbered ⊢
      have keeps : Keeps s after :=
        ⟨renumbers.keeps.options, renumbers.keeps.saved, renumbers.keeps.book,
          renumbers.keeps.backends⟩
      refine ⟨s.counter, s.unnamed, ?_⟩
      change ended = (w.routine s.backends s.counter s.unnamed specs).map _ at outcome
      cases made : w.routine s.backends s.counter s.unnamed specs with
      | error failure =>
        rw [made] at outcome
        subst outcome
        have unchanged := renumbers.rest
        refine ⟨known, fun _ listed => listed, ?_, keeps, .fails rfl⟩
        exact missed.weaken renumbers.stages renumbers.keeps.backends
          (fun _ listed => by rw [unchanged] at listed; exact listed)
          fun _ listed => by rw [unchanged] at listed; exact listed
      | ok pair =>
        rw [made] at outcome
        subst outcome
        refine ⟨⟨s.stages, pair.1, pair.2⟩ :: known, fun _ listed => mem_cons_of_mem _ listed, ?_,
          ⟨keeps.options, keeps.saved, keeps.book, keeps.backends⟩,
          .gives ⟨rfl, mem_cons_self⟩⟩
        exact missed.stores_lowered member rfl ⟨s.counter, s.unnamed, made⟩ (numbered _ rfl)
          renumbers.rest
    · -- A hit: the entry was made for this function and these arguments.
      rw [StageCache.Slot.getOrMake_hit _ looked]
      obtain ⟨entry, fewer⟩ := StageCache.find_some looked
      obtain ⟨-, listed, makes⟩ := sound.lowerings _ entry
      obtain ⟨counter, unnamed, made⟩ := makes w member specs rfl
      refine ⟨counter, unnamed, known, fun _ listed => listed, ?_, ⟨rfl, rfl, rfl, rfl⟩, ?_⟩
      · exact sound.weaken (le_refl _) rfl fewer fun _ listed => listed
      · rw [made]
        exact .gives ⟨rfl, listed⟩

theorem compile (member : l ∈ known) (options? : Option Options) :
    (Session.compile l options? s).2.Sound wrapped known ∧ Keeps s
      (Session.compile l options? s).2 ∧
      Likewise (fun c x => x = c.executable ∧ c.options = s.resolveOptions options?)
        (Session.compile l options? s).1 (l.executable (s.resolveOptions options?)) := by
  have steps : Session.compile l options? s =
      compilationSlot.getOrMake ⟨l.id, .options (s.resolveOptions options?)⟩
        (compileAnew l (s.resolveOptions options?)) s := by
    unfold Session.compile
    rw [bind_run, get_run]
  rw [steps]
  generalize s.resolveOptions options? = options
  rcases looked : s.compilations.find ⟨l.id, .options options⟩ with ⟨_ | c, cache⟩
  · rw [StageCache.Slot.getOrMake_miss _ looked]
    have memory : cache.memory = s.compilations.memory := by
      rw [(StageCache.find_eq_none looked).2]
    have missed : (compilationSlot.put cache s).Sound wrapped known :=
      sound.weaken (le_refl _) rfl (fun _ listed => listed) fun entry listed => memory ▸ listed
    obtain ⟨outcome, rest⟩ := compileAnew_ends l options (compilationSlot.put cache s)
    generalize compileAnew l options (compilationSlot.put cache s) = ran at outcome rest
    obtain ⟨ended, after⟩ := ran
    dsimp only at outcome rest ⊢
    have counted : after.Sound wrapped known := by
      rw [rest]
      exact missed.weaken (le_refl _) rfl (fun _ listed => listed) fun _ listed => listed
    have keeps : Keeps s after := by
      rw [rest]
      exact ⟨rfl, rfl, rfl, rfl⟩
    cases made : l.executable options with
    | error failure =>
      rw [made] at outcome
      subst outcome
      exact ⟨counted, keeps, .fails rfl⟩
    | ok executable =>
      rw [made] at outcome
      subst outcome
      exact ⟨counted.stores_compiled member made rfl, ⟨keeps.options, keeps.saved, keeps.book,
        keeps.backends⟩, .gives ⟨rfl, rfl⟩⟩
  · rw [StageCache.Slot.getOrMake_hit _ looked]
    obtain ⟨entry, fewer⟩ := StageCache.find_some looked
    obtain ⟨-, made⟩ := sound.compilations _ entry
    obtain ⟨compiled, under⟩ := made l member options rfl
    refine ⟨sound.weaken (le_refl _) rfl (fun _ listed => listed) fewer, ⟨rfl, rfl, rfl, rfl⟩, ?_⟩
    rw [compiled]
    exact .gives ⟨rfl, under⟩

-- A call is what lowering, compiling and running give past the caches, from any numbers.
theorem call (member : w ∈ wrapped) (pure : w.trace.Pure) (uniform : w.book.Uniform)
    (backed : ∀ backend, s.backends.get? w.backend = some backend → backend.Uniform)
    (args : List Argument) (counter unnamed : Nat) :
    (∃ known', (∀ l ∈ known, l ∈ known') ∧ (Session.call w args s).2.Sound wrapped known') ∧ Keeps s
      (Session.call w args s).2 ∧ Likewise Eq (Session.call w args s).1 (do
        let specs ← describeCall args
        let x ← w.executable s.backends counter unnamed specs s.options
        x.call args) := by
  have steps : Session.call w args s = match Session.lower w args s with
      | (.error failure, s) => (.error failure, s)
      | (.ok lowered, s) => match Session.compile lowered none s with
        | (.error failure, s) => (.error failure, s)
        | (.ok c, s) => (c.executable.call args, s) := by
    unfold Session.call
    rw [bind_run]
    rcases Session.lower w args s with ⟨failure | lowered, s⟩
    · rfl
    dsimp only
    rw [bind_run]
    rcases Session.compile lowered none s with ⟨failure | c, s⟩ <;> rfl
  obtain ⟨counter', unnamed', known', more, sound', keeps, likewise⟩ := sound.lower member args
  rw [steps]
  generalize Session.lower w args s = lowering at likewise sound' keeps
  obtain ⟨ended, s'⟩ := lowering
  dsimp only at likewise sound' keeps
  cases described : describeCall args with
  | error failure =>
    rw [described] at likewise
    cases likewise with
    | fails same => exact ⟨⟨known', more, sound'⟩, keeps, .fails same⟩
  | ok specs =>
    have numbers : Likewise Executable.SameCalls
        (w.routine s.backends counter' unnamed' specs >>= fun made => Lowered.executable ⟨0, made.1,
          made.2⟩ s.options) _ :=
      w.likewise_executable s.backends pure uniform counter' counter unnamed' unnamed specs backed
        s.options
    rw [described, ok_bind] at likewise
    generalize w.routine s.backends counter' unnamed' specs = routine at likewise numbers
    simp only [ok_bind]
    cases likewise with
    | fails same =>
      have failed : Likewise (fun _ _ : Executable => False) (.error _) (.error _) := .fails same
      exact ⟨⟨known', more, sound'⟩, keeps,
        Executable.likewise_call id ((failed.trans numbers).imp fun _ _ ⟨_, impossible, _⟩ =>
          impossible.elim) args⟩
    | @gives lowered made given =>
      obtain ⟨rfl, listed⟩ := given
      obtain ⟨sound'', keeps', compiling⟩ := sound'.compile listed none
      have inForce : s'.resolveOptions none = s.options := keeps.options
      rw [inForce] at compiling
      have runs := Executable.likewise_call Compiled.executable
        ((compiling.trans numbers).imp fun _ _ ⟨_, ⟨same, _⟩, calls⟩ => same ▸ calls) args
      have keeps := keeps.trans keeps'
      dsimp only
      generalize Session.compile lowered none s' = compiled at runs sound'' keeps
      obtain ⟨_ | c, after⟩ := compiled <;> exact ⟨⟨known', more, sound''⟩, keeps, runs⟩

end Sound

end Session

end TraceFlow
