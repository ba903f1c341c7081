import TraceFlow.Proofs.CachedStages

set_option autoImplicit false

namespace TraceFlow

open Outcome List

-- Stages are referred to by the place at which they were handed out.
inductive Request where
  | wrap (trace : Traceable) (options : Session.WrapOptions)
  | lower (function : Nat) (args : List Argument)
  | compile (lowered : Nat) (options? : Option Options)
  | call (function : Nat) (args : List Argument)
  | run (compiled : Nat) (args : List Argument)
  | setOptions (options : Options)
  | updateOptions (options : Options)
  | pushOptions (options : Options)
  | popOptions
  | register (rule : Rule) (overwrite : Bool)
  | setBook (book : RuleBook)
  | clearCaches

inductive Reply where
  | done
  | outputs (values : List Tensor)
  -- The options that were in force before.
  | earlier (options : Options)

structure Desk where
  session : Session
  wrapped : List Wrapped
  lowered : List Lowered
  compiled : List Compiled

def noStage : Failure :=
  .error (.invariant "no such stage")

namespace Desk

def turn {α : Type} (d : Desk) (step : SessionM α) (file : α → Desk → Desk) (reply : α → Reply) :
    Outcome Reply × Desk :=
  match step d.session with
  | (.ok a, session) => (.ok (reply a), file a { d with session })
  | (.error failure, session) => (.error failure, { d with session })

def serve (d : Desk) : Request → Outcome Reply × Desk
  | .wrap trace options =>
    d.turn (Session.wrap trace options) (fun w d => { d with wrapped := d.wrapped ++ [w] }) fun _ =>
      .done
  | .lower place args =>
    match d.wrapped[place]? with
    | none => (.error noStage, d)
    | some w =>
      d.turn (Session.lower w args) (fun l d => { d with lowered := d.lowered ++ [l] }) fun _ =>
        .done
  | .compile place options? =>
    match d.lowered[place]? with
    | none => (.error noStage, d)
    | some l =>
      d.turn (Session.compile l options?) (fun c d => { d with compiled := d.compiled ++ [c] })
        fun _ => .done
  | .call place args =>
    match d.wrapped[place]? with
    | none => (.error noStage, d)
    | some w => d.turn (Session.call w args) (fun _ d => d) .outputs
  | .run place args =>
    match d.compiled[place]? with
    | none => (.error noStage, d)
    | some c => d.turn (Session.lift (c.executable.call args)) (fun _ d => d) .outputs
  | .setOptions options => d.turn (Session.setOptions options) (fun _ d => d) .earlier
  | .updateOptions options => d.turn (Session.updateOptions options) (fun _ d => d) .earlier
  | .pushOptions options => d.turn (Session.pushOptions options) (fun _ d => d) fun _ => .done
  | .popOptions => d.turn Session.popOptions (fun _ d => d) fun _ => .done
  | .register rule overwrite =>
    d.turn (Session.register rule overwrite) (fun _ d => d) fun _ => .done
  | .setBook book => d.turn (Session.setBook book) (fun _ d => d) fun _ => .done
  | .clearCaches => (.ok .done, { d with session := d.session.clearCaches })

-- The replies to requests one after the other; a request that fails does not end the history.
def replies (d : Desk) : List Request → List (Outcome Reply)
  | [] => []
  | request :: rest => (d.serve request).1 :: (d.serve request).2.replies rest

def new (session : Session) : Desk :=
  ⟨session, [], [], []⟩

end Desk

structure Ledger where
  backends : Dict Backend
  book : RuleBook
  options : Options
  saved : List Options
  wrapped : List Wrapped
  -- The function and the arguments of each lowered stage.
  lowered : List (Wrapped × List ArgSpec)
  -- The same for each compiled stage, with the options that were in force.
  compiled : List (Wrapped × List ArgSpec × Options)

namespace Ledger

def note {α : Type} (l : Ledger) (outcome : Outcome α) (file : α → Ledger → Ledger)
    (reply : α → Reply) : Outcome Reply × Ledger :=
  match outcome with
  | .ok a => (.ok (reply a), file a l)
  | .error failure => (.error failure, l)

def resolved (l : Ledger) (options? : Option Options) : Options :=
  match options? with
  | some options => l.options.merged options
  | none => l.options

-- Evaluates a request from the start, from any numbers of variables and unnamed graphs.
def answer (l : Ledger) (counter unnamed : Nat) : Request → Outcome Reply × Ledger
  | .wrap trace options =>
    if options.unknown.isEmpty then
      (.ok .done, { l with wrapped :=
        l.wrapped ++ [⟨0, trace, options.name?, options.book?.getD l.book,
          options.backend?.getD Session.defaultBackend⟩] })
    else (refuse (.unsupported ("jit options " ++ ", ".intercalate options.unknown)), l)
  | .lower place args =>
    match l.wrapped[place]? with
    | none => (.error noStage, l)
    | some w => l.note (do
        let specs ← describeCall args
        let _ ← w.routine l.backends counter unnamed specs
        return specs) (fun specs l => { l with lowered := l.lowered ++ [(w, specs)] }) fun _ =>
          .done
  | .compile place options? =>
    match l.lowered[place]? with
    | none => (.error noStage, l)
    | some (w, specs) =>
      l.note (w.executable l.backends counter unnamed specs (l.resolved options?))
        (fun _ l => { l with compiled := l.compiled ++ [(w, specs, l.resolved options?)] }) fun _ =>
        .done
  | .call place args =>
    match l.wrapped[place]? with
    | none => (.error noStage, l)
    | some w => l.note (do
        let specs ← describeCall args
        let x ← w.executable l.backends counter unnamed specs l.options
        x.call args) (fun _ l => l) .outputs
  | .run place args =>
    match l.compiled[place]? with
    | none => (.error noStage, l)
    | some (w, specs, options) => l.note (do
        let x ← w.executable l.backends counter unnamed specs options
        x.call args) (fun _ l => l) .outputs
  | .setOptions options => (.ok (.earlier l.options), { l with options })
  | .updateOptions options =>
    (.ok (.earlier l.options), { l with options := l.options.merged options })
  | .pushOptions options =>
    (.ok .done, { l with options := l.options.merged options, saved := l.options :: l.saved })
  | .popOptions =>
    match l.saved with
    | [] => (.ok .done, l)
    | previous :: saved => (.ok .done, { l with options := previous, saved })
  | .register rule overwrite =>
    l.note (l.book.register rule overwrite) (fun book l => { l with book }) fun _ => .done
  | .setBook book => (.ok .done, { l with book })
  | .clearCaches => (.ok .done, l)

def answers (l : Ledger) : List (Request × Nat × Nat) → List (Outcome Reply)
  | [] => []
  | (request, counter, unnamed) :: rest =>
    (l.answer counter unnamed request).1 :: (l.answer counter unnamed request).2.answers rest

def new (s : Session) : Ledger :=
  ⟨s.backends, s.book, s.options, s.saved, [], [], []⟩

end Ledger

-- A function that is traced and lowered the same from any numbers.
def Wrapped.Steady (w : Wrapped) : Prop :=
  w.trace.Pure ∧ w.book.Uniform

-- Functions that come in are pure, and rules see no numbers.
def Request.Steady : Request → Prop
  | .wrap trace options => trace.Pure ∧ ∀ book ∈ options.book?, RuleBook.Uniform book
  | .register rule _ => rule.Uniform
  | .setBook book => book.Uniform
  | _ => True

-- A desk and a ledger that have handed out the same stages. The caches of the desk are sound, and
-- each of its stages was made as the ledger notes, from some numbers.
structure Desk.Agrees (d : Desk) (l : Ledger) : Prop where
  backends : l.backends = d.session.backends
  book : l.book = d.session.book
  options : l.options = d.session.options
  saved : l.saved = d.session.saved
  uniform : l.book.Uniform
  backed : ∀ name backend, l.backends.get? name = some backend → backend.Uniform
  wrapped : l.wrapped = d.wrapped.map fun w => { w with id := 0 }
  steady : ∀ w ∈ d.wrapped, w.Steady
  sound : ∃ known, d.session.Sound d.wrapped known ∧ ∀ lowered ∈ d.lowered, lowered ∈ known
  lowered : List.Forall₂ (fun lowered noted => noted.1.Steady ∧
    noted.1.Makes l.backends noted.2 lowered) d.lowered l.lowered
  compiled : List.Forall₂ (fun compiled noted => noted.1.Steady ∧ ∃ counter unnamed,
    noted.1.executable l.backends counter unnamed noted.2.1 noted.2.2 = .ok compiled.executable)
    d.compiled l.compiled

-- A request that both answer alike, and that leaves them in agreement.
def Desk.Matches (d : Desk) (l : Ledger) (counter unnamed : Nat) (request : Request) : Prop :=
  Likewise Eq (d.serve request).1 (l.answer counter unnamed request).1 ∧
    (d.serve request).2.Agrees (l.answer counter unnamed request).2

namespace Desk.Agrees

variable {d : Desk} {l : Ledger} {α β : Type}

variable {related : α → β → Prop} {session : Session}

theorem turn (step : SessionM α) {outcome : Outcome β} {file : α → Desk → Desk}
    {file' : β → Ledger → Ledger} {reply : α → Reply} {reply' : β → Reply}
    (likewise : Likewise related (step d.session).1 outcome)
    (agrees : Agrees { d with session := (step d.session).2 } l)
    (filed : ∀ a b, related a b → reply a = reply' b ∧
      (file a { d with session := (step d.session).2 }).Agrees (file' b l)) :
    Likewise Eq (d.turn step file reply).1 (l.note outcome file' reply').1 ∧
    (d.turn step file reply).2.Agrees (l.note outcome file' reply').2 := by
  unfold Desk.turn Ledger.note
  generalize step d.session = ran at likewise agrees filed
  obtain ⟨ended, session⟩ := ran
  cases likewise with
  | fails same => exact ⟨.fails same, agrees⟩
  | gives holds => exact ⟨.gives (filed _ _ holds).1, (filed _ _ holds).2⟩

variable (agrees : Agrees d l) (counter unnamed : Nat)

include agrees

theorem goes_on {known : List Lowered} (keeps : d.session.Keeps session)
    (sound : session.Sound d.wrapped known)
    (handed : ∀ lowered ∈ d.lowered, lowered ∈ known) : Agrees { d with session } l :=
  { agrees with
    backends := agrees.backends.trans keeps.backends.symm
    book := agrees.book.trans keeps.book.symm
    options := agrees.options.trans keeps.options.symm
    saved := agrees.saved.trans keeps.saved.symm
    sound := ⟨known, sound, handed⟩ }

theorem lookup_wrapped (place : Nat) : l.wrapped[place]? = (d.wrapped[place]?).map fun w =>
    { w with id := 0 } := by
  rw [agrees.wrapped, getElem?_map]

theorem lower (place : Nat) (args : List Argument) : d.Matches l counter unnamed
    (.lower place args) := by
  simp only [Matches, Desk.serve, Ledger.answer, agrees.lookup_wrapped]
  cases found : d.wrapped[place]? with
  | none => exact ⟨.fails rfl, agrees⟩
  | some w =>
    have member := mem_of_getElem? found
    have steady := agrees.steady w member
    obtain ⟨known, sound, handed⟩ := agrees.sound
    obtain ⟨counter', unnamed', known', more, sound', keeps, likewise⟩ := sound.lower member args
    have goes := agrees.goes_on keeps sound' fun lowered listed => more lowered
      (handed lowered listed)
    have ends : Likewise (fun lowered specs => lowered ∈ known' ∧ w.Makes l.backends specs lowered)
      (Session.lower w args d.session).1 (do
        let specs ← describeCall args
        let _ ← Wrapped.routine { w with id := 0 } l.backends counter unnamed specs
        return specs) := by
      rw [agrees.backends]
      cases described : describeCall args with
      | error failure => exact Likewise.of_error (described ▸ likewise)
      | ok specs =>
        rw [described, ok_bind] at likewise
        -- The numbers at hand give a routine exactly if those of the entry do.
        have numbers := Wrapped.likewise_routine d.session.backends steady.1 steady.2 counter'
          counter unnamed' unnamed specs
        refine (likewise.with_right.trans numbers).map_right
          fun lowered _ ⟨made, ⟨⟨same, listed⟩, built⟩, _⟩ => ⟨listed, counter', unnamed', ?_⟩
        rw [built, same]
    refine turn _ ends goes fun lowered specs made => ⟨rfl, ?_⟩
    exact { goes with
      sound := ⟨known', sound', by
        intro other listed
        rcases mem_append.mp listed with old | new
        · exact more other (handed other old)
        · exact mem_singleton.mp new ▸ made.1⟩
      lowered := rel_append goes.lowered (.cons ⟨steady, made.2⟩ .nil) }

theorem executable {w : Wrapped} (steady : w.Steady) {specs : List ArgSpec} {lowered : Lowered}
    (makes : w.Makes l.backends specs lowered) (options : Options) :
    (∃ counter' unnamed', w.executable l.backends counter' unnamed' specs options =
      lowered.executable options) ∧ Likewise Executable.SameCalls (lowered.executable options)
        (w.executable l.backends counter unnamed specs options) := by
  obtain ⟨counter', unnamed', made⟩ := makes
  have same : w.executable l.backends counter' unnamed' specs options =
    lowered.executable options := by
    rw [Wrapped.executable, made]
    rfl
  refine ⟨⟨counter', unnamed', same⟩, ?_⟩
  rw [← same]
  exact Wrapped.likewise_executable l.backends steady.1 steady.2 counter' counter unnamed' unnamed
    specs (agrees.backed _) options

theorem resolved (options? : Option Options) :
    l.resolved options? = d.session.resolveOptions options? := by
  cases options? <;> simp only [Ledger.resolved, Session.resolveOptions, agrees.options]

theorem compile (place : Nat) (options? : Option Options) : d.Matches l counter unnamed
    (.compile place options?) := by
  simp only [Matches, Desk.serve, Ledger.answer]
  have noted := Outcome.rel_getElem? agrees.lowered place
  generalize found : d.lowered[place]? = stage? at noted
  generalize l.lowered[place]? = noted? at noted
  cases noted with
  | none => exact ⟨.fails rfl, agrees⟩
  | @some lowered stage given =>
    obtain ⟨w, specs⟩ := stage
    obtain ⟨steady, makes⟩ := given
    obtain ⟨known, sound, handed⟩ := agrees.sound
    obtain ⟨sound', keeps, likewise⟩ := sound.compile (handed lowered (mem_of_getElem? found))
      options?
    have goes := agrees.goes_on keeps sound' handed
    obtain ⟨⟨counter', unnamed', made⟩, numbers⟩ :=
      agrees.executable counter unnamed steady makes (l.resolved options?)
    rw [← agrees.resolved] at likewise
    refine turn _ (likewise.with_right.trans numbers) goes fun c _ ⟨x, ⟨⟨same, _⟩, compiled⟩, _⟩ =>
      ⟨rfl, ?_⟩
    have built : w.executable l.backends counter' unnamed' specs (l.resolved options?) =
      .ok c.executable := by
      rw [made, compiled, same]
    exact { goes with compiled := rel_append goes.compiled (.cons ⟨steady, counter', unnamed',
      built⟩ .nil) }

theorem run (place : Nat) (args : List Argument) : d.Matches l counter unnamed
    (.run place args) := by
  simp only [Matches, Desk.serve, Ledger.answer]
  have noted := Outcome.rel_getElem? agrees.compiled place
  generalize d.compiled[place]? = found at noted
  generalize l.compiled[place]? = found' at noted
  cases noted with
  | none => exact ⟨.fails rfl, agrees⟩
  | @some c stage given =>
    obtain ⟨w, specs, options⟩ := stage
    obtain ⟨steady, counter', unnamed', made⟩ := given
    have numbers := Wrapped.likewise_executable l.backends steady.1 steady.2 counter' counter
      unnamed' unnamed specs (agrees.backed _) options
    rw [made] at numbers
    exact turn (Session.lift (c.executable.call args)) (Executable.likewise_call id numbers args)
      agrees fun _ _ same => ⟨congrArg Reply.outputs same, agrees⟩

theorem call (place : Nat) (args : List Argument) : d.Matches l counter unnamed
    (.call place args) := by
  simp only [Matches, Desk.serve, Ledger.answer, agrees.lookup_wrapped]
  cases found : d.wrapped[place]? with
  | none => exact ⟨.fails rfl, agrees⟩
  | some w =>
    have member := mem_of_getElem? found
    have steady := agrees.steady w member
    obtain ⟨known, sound, handed⟩ := agrees.sound
    obtain ⟨⟨known', more, sound'⟩, keeps, likewise⟩ := sound.call member steady.1 steady.2
      (fun backend found => agrees.backed _ backend (agrees.backends ▸ found)) args counter unnamed
    have goes := agrees.goes_on keeps sound' fun lowered listed => more lowered
      (handed lowered listed)
    rw [← agrees.backends, ← agrees.options] at likewise
    exact turn _ likewise goes fun _ _ same => ⟨congrArg Reply.outputs same, goes⟩

theorem of_settings {l' : Ledger}
    (caches : session = { d.session with book := session.book, options := session.options, saved :=
      session.saved })
    (noted : l' = { l with book := session.book, options := session.options, saved :=
      session.saved }) (uniform : session.book.Uniform) :
    Agrees { d with session } l' := by
  subst noted
  obtain ⟨known, sound, handed⟩ := agrees.sound
  refine { agrees with
    backends := by rw [caches]; exact agrees.backends
    book := rfl, options := rfl, saved := rfl, uniform
    sound := ⟨known, ?_, handed⟩ }
  rw [caches]
  exact sound.weaken (le_refl _) rfl (fun _ listed => listed) fun _ listed => listed

theorem wrap {trace : Traceable} {options : Session.WrapOptions}
    (steady : (Request.wrap trace options).Steady) : d.Matches l counter unnamed
      (.wrap trace options) := by
  have steps : Session.wrap trace options d.session = if options.unknown.isEmpty then
        (.ok ⟨d.session.stages, trace, options.name?, options.book?.getD d.session.book,
          options.backend?.getD Session.defaultBackend⟩,
          { d.session with stages := d.session.stages + 1 })
      else (refuse (.unsupported ("jit options " ++ ", ".intercalate options.unknown)),
        d.session) := by
    unfold Session.wrap
    cases options.unknown.isEmpty <;> rfl
  simp only [Matches, Desk.serve, Ledger.answer, Desk.turn, steps]
  cases options.unknown.isEmpty with
  | false => exact ⟨.fails rfl, agrees⟩
  | true =>
    obtain ⟨known, sound, handed⟩ := agrees.sound
    have uniform : (options.book?.getD d.session.book).Uniform := by
      cases given : options.book? with
      | none => exact agrees.book ▸ agrees.uniform
      | some book => exact steady.2 book given
    refine ⟨.gives rfl, { agrees with wrapped := ?_, steady := ?_, sound :=
      ⟨known, sound.wraps rfl, handed⟩ }⟩
    · simp only [if_true, map_append, agrees.wrapped, agrees.book, map_cons, map_nil]
    · intro w member
      rcases mem_append.mp member with old | new
      · exact agrees.steady w old
      · obtain rfl := mem_singleton.mp new
        exact ⟨steady.1, uniform⟩

theorem register {rule : Rule} (uniform : rule.Uniform) (overwrite : Bool) :
    d.Matches l counter unnamed (.register rule overwrite) := by
  have steps : Session.register rule overwrite d.session = match d.session.book.register rule
    overwrite with
      | .error failure => (.error failure, d.session)
      | .ok book => (.ok (), { d.session with book }) := by
    unfold Session.register
    rw [bind_run, get_run]
    dsimp only
    rw [bind_run, Session.lift]
    cases d.session.book.register rule overwrite <;> rfl
  simp only [Matches, Desk.serve, Ledger.answer, Desk.turn, Ledger.note, steps, agrees.book]
  cases registered : d.session.book.register rule overwrite with
  | error failure => exact ⟨.fails rfl, agrees⟩
  | ok book =>
    refine ⟨.gives rfl, agrees.of_settings rfl (by rw [agrees.options, agrees.saved]) ?_⟩
    -- The book holds the new rule and those it held before.
    have inserted : d.session.book.insert rule.primitive rule = book := by
      unfold RuleBook.register at registered
      split at registered
      · cases registered
      · exact Except.ok.inj registered
    intro primitive found known
    rw [← inserted, Dict.get?_insert] at known
    split at known
    · exact Option.some.inj known ▸ uniform
    · exact agrees.uniform primitive found (agrees.book ▸ known)

theorem step {request : Request} (steady : request.Steady) :
    d.Matches l counter unnamed request := by
  have uniform : d.session.book.Uniform := agrees.book ▸ agrees.uniform
  cases request with
  | wrap trace options => exact agrees.wrap counter unnamed steady
  | lower place args => exact agrees.lower counter unnamed place args
  | compile place options? => exact agrees.compile counter unnamed place options?
  | call place args => exact agrees.call counter unnamed place args
  | run place args => exact agrees.run counter unnamed place args
  | register rule overwrite => exact agrees.register counter unnamed steady overwrite
  | setOptions options =>
    refine ⟨.gives (congrArg Reply.earlier agrees.options.symm), agrees.of_settings rfl ?_ uniform⟩
    simp only [Ledger.answer, ← agrees.book, ← agrees.saved]
  | updateOptions options =>
    refine ⟨.gives (congrArg Reply.earlier agrees.options.symm), agrees.of_settings rfl ?_ uniform⟩
    simp only [Ledger.answer, ← agrees.book, ← agrees.saved, ← agrees.options]
  | pushOptions options =>
    refine ⟨.gives rfl, agrees.of_settings rfl ?_ uniform⟩
    simp only [Ledger.answer, ← agrees.book, ← agrees.saved, ← agrees.options]
  | popOptions =>
    have steps : Session.popOptions d.session = match d.session.saved with
        | [] => (.ok (), d.session)
        | previous :: saved => (.ok (), { d.session with options := previous, saved }) := by
      unfold Session.popOptions
      rw [bind_run, get_run]
      dsimp only
      cases d.session.saved <;> rfl
    simp only [Matches, Desk.serve, Ledger.answer, Desk.turn, steps, agrees.saved]
    cases d.session.saved with
    | nil => exact ⟨.gives rfl, agrees⟩
    | cons previous saved =>
      exact ⟨.gives rfl, agrees.of_settings rfl (by simp only [← agrees.book]) uniform⟩
  | setBook book =>
    refine ⟨.gives rfl, agrees.of_settings rfl ?_ steady⟩
    simp only [Ledger.answer, ← agrees.options, ← agrees.saved]
  | clearCaches =>
    obtain ⟨known, sound, handed⟩ := agrees.sound
    refine ⟨.gives rfl, agrees.goes_on ⟨rfl, rfl, rfl, rfl⟩ ?_ handed⟩
    exact sound.weaken (le_refl _) rfl (fun _ listed => nomatch listed) fun _ listed => nomatch
      listed

omit agrees

theorem new {s : Session} (lowerings : s.lowerings.size = 0)
    (compilations : s.compilations.size = 0) (uniform : s.book.Uniform)
    (backed : ∀ name backend, s.backends.get? name = some backend → backend.Uniform) :
    (Desk.new s).Agrees (Ledger.new s) where
  backends := rfl
  book := rfl
  options := rfl
  saved := rfl
  uniform := uniform
  backed := backed
  wrapped := rfl
  steady := fun _ listed => nomatch listed
  sound := ⟨[], .of_empty lowerings compilations, nofun⟩
  lowered := .nil
  compiled := .nil

theorem replies (agrees : Agrees d l) (turns : List (Request × Nat × Nat))
    (steady : ∀ turn ∈ turns, turn.1.Steady) :
    List.Forall₂ (Likewise Eq) (d.replies (turns.map Prod.fst)) (l.answers turns) := by
  induction turns generalizing d l with
  | nil => exact .nil
  | cons turn rest ih =>
    obtain ⟨request, counter, unnamed⟩ := turn
    obtain ⟨likewise, further⟩ :=
      agrees.step counter unnamed (steady (request, counter, unnamed) mem_cons_self)
    exact .cons likewise (ih further fun turn listed => steady turn (mem_cons_of_mem _ listed))

end Desk.Agrees

-- From a session with empty caches of any capacity, every history of requests is answered as if
-- there were no caches: each time a function is called, or a compiled one run, its outputs are
-- those of tracing, lowering, finishing, optimizing under the options that were in force, compiling
-- and running from the start, from whatever numbers, or it fails likewise.
theorem replies_uncached {s : Session} (lowerings : s.lowerings.size = 0)
    (compilations : s.compilations.size = 0) (uniform : s.book.Uniform)
    (backed : ∀ name backend, s.backends.get? name = some backend → backend.Uniform)
    (turns : List (Request × Nat × Nat)) (steady : ∀ turn ∈ turns, turn.1.Steady) :
    List.Forall₂ (Likewise Eq) ((Desk.new s).replies (turns.map Prod.fst))
      ((Ledger.new s).answers turns) :=
  (Desk.Agrees.new lowerings compilations uniform backed).replies turns steady

-- A function of one argument that applies a primitive to it.
def applying (primitive : String) : Traceable := fun specs => do
  match specs with
  | [spec] =>
    let x ← Var.trace spec.shape spec.elem
    let y ← Var.trace spec.shape spec.elem
    TraceM.ofOutcome (Lambda.close ⟨[x], [], [], [], [⟨primitive, [.var x], [y], {}, false⟩],
      [.var y]⟩)
  | _ => refuse (.unsupported "one argument is needed")

theorem pure_applying (primitive : String) : (applying primitive).Pure := by
  intro specs
  refine ⟨(applying primitive specs 0).1, fun counter => ?_⟩
  rcases specs with _ | ⟨spec, _ | ⟨second, others⟩⟩
  · exact .fails rfl
  · exact .gives ⟨(counter + ·), fun _ _ same => Nat.add_left_cancel same, rfl⟩
  · exact .fails rfl

theorem pure_choosing : Session.choosing.Pure :=
  fun specs => ⟨(Session.choosing specs 0).1, fun counter => .gives ⟨(counter + ·),
    fun _ _ same => Nat.add_left_cancel same, rfl⟩⟩

-- Two functions take turns in caches with room for one entry, so that each pushes the other out,
-- while options come and go and stages from before are used.
theorem replies_uncached_taking_turns :
    let s := Session.new 1 [.cpu]
    let pair : Argument := .tensor ⟨.int64, [2], [1], .cpuHeap, Array.replicate 16 1⟩
    let selector : Argument := .scalar ⟨.int64, .int 1⟩
    let requests : List Request := [.wrap (applying "neg") {}, .wrap Session.choosing {},
      .call 0 [pair], .lower 1 [selector, pair], .call 0 [pair],
      .compile 0 none, .pushOptions (.all false), .compile 0 none, .call 1 [selector, pair],
      .popOptions, .run 0 [selector, pair], .run 1 [selector, pair]]
    s.lowerings.size = 0 ∧ s.compilations.size = 0 ∧ s.book.Uniform ∧
      (∀ request ∈ requests, request.Steady) ∧
      List.Forall₂ (Likewise Eq) ((Desk.new s).replies requests)
        ((Ledger.new s).answers (requests.map fun request => (request, 5, 3))) := by
  intro s pair selector requests
  have steady : ∀ request ∈ requests, request.Steady := by
    have unwrapped : ∀ book ∈ (none : Option RuleBook), RuleBook.Uniform book := nofun
    simp only [requests, mem_cons, not_mem_nil, or_false, forall_eq_or_imp, forall_eq,
      Request.Steady, and_true]
    exact ⟨⟨pure_applying "neg", unwrapped⟩, pure_choosing, unwrapped⟩
  have backed : ∀ name backend, s.backends.get? name = some backend → backend.Uniform := by
    intro name backend known
    have listed := Dict.mem_of_get?_ofList known
    obtain ⟨-, rfl⟩ := Prod.mk.inj (mem_singleton.mp listed)
    exact Backend.uniform_cpu
  have turns := replies_uncached rfl rfl RuleBook.uniform_builtin backed
    (requests.map fun request => (request, 5, 3)) (by
    intro turn listed
    obtain ⟨request, member, rfl⟩ := mem_map.mp listed
    exact steady request member)
  rw [map_map] at turns
  exact ⟨rfl, rfl, RuleBook.uniform_builtin,
    steady, by simpa only [Function.comp_def, map_id'] using turns⟩

end TraceFlow
