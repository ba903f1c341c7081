import TraceFlow.Proofs.ContractionSteps

set_option autoImplicit false

namespace TraceFlow

variable {id : Nat}

namespace Machine

open TraceFlow.Graph Program

variable {memory : Memory} {symbols : Symbols} {g : Graph} {effects : List Effect}

def onward (memory : Memory) (symbols : Symbols) (edges : List Edge) : Outcome Turn := do
  return (memory, ← take memory symbols edges)

def Turn.renumbered (f : Nat → Nat) (t : Turn) : Turn :=
  (t.1, t.2.map fun next => (f next.1, next.2))

theorem TurnMatch.renumbered {related : Nat → Nat → Prop} (f : Nat → Nat) {result : Outcome Turn}
    (targets : ∀ memory target symbols, result = .ok (memory, some (target, symbols)) →
      related target (f target)) : TurnMatch related result (result.map (Turn.renumbered f)) := by
  rcases result with failure | ⟨memory, (_ | ⟨target, symbols⟩)⟩
  · exact .fails failure
  · exact .stops memory
  · exact .moves memory symbols (targets memory target symbols rfl)

theorem take_map {f : Nat → Nat} {edges : List Edge} {change : Edge → Edge}
    (same : ∀ e ∈ edges, (change e).guard? = e.guard? ∧ (change e).assignments = e.assignments ∧
      (change e).target = f e.target) :
    take memory symbols (edges.map change) = (take memory symbols edges).map
      (Option.map fun next => (f next.1, next.2)) := by
  induction edges with
  | nil => rfl
  | cons e rest ih =>
    obtain ⟨⟨guards, assignments, target⟩, same⟩ := List.forall_mem_cons.mp same
    have opens : isOpen symbols (change e) = isOpen symbols e := by rw [isOpen, isOpen, guards]
    have passes : pass memory symbols (change e) = pass memory symbols e := by
      rw [pass, pass, assignments]
    rw [List.map_cons, take_cons, take_cons, opens, passes, target]
    cases isOpen symbols e with
    | error failure => rfl
    | ok isOpen =>
      cases isOpen with
      | true => cases pass memory symbols e <;> rfl
      | false => exact ih same

theorem onward_map {f : Nat → Nat} {edges : List Edge} {change : Edge → Edge}
    (same : ∀ e ∈ edges, (change e).guard? = e.guard? ∧ (change e).assignments = e.assignments ∧
      (change e).target = f e.target) :
    onward memory symbols (edges.map change) = (onward memory symbols edges).map
      (Turn.renumbered f) := by
  rw [onward, onward, take_map same]
  cases take memory symbols edges <;> rfl

theorem onward_renumbered (memory : Memory) (symbols : Symbols) (f : Nat → Nat)
    (edges : List Edge) :
    onward memory symbols (edges.map (Edge.renumbered f)) = (onward memory symbols edges).map
      (Turn.renumbered f) :=
  onward_map fun _ _ => ⟨rfl, rfl, rfl⟩

def Moved (gone : Nat) (id id' : Nat) : Prop :=
  id ≠ gone ∧ id' = shifted gone id

theorem onward_moved {gone : Nat} {edges : List Edge} {change : Edge → Edge}
    (same : ∀ e ∈ edges, (change e).guard? = e.guard? ∧
      (change e).assignments = e.assignments ∧ (change e).target = shifted gone e.target)
      (elsewhere : ∀ e ∈ edges, e.target ≠ gone) :
    TurnMatch (Moved gone) (onward memory symbols edges)
      (onward memory symbols (edges.map change)) := by
  rw [onward_map same]
  apply TurnMatch.renumbered
  intro _ _ _ moved
  obtain ⟨next, taken, moved⟩ := bind_eq_ok.mp moved
  cases moved
  obtain ⟨e, member, rfl⟩ := take_target taken
  exact ⟨elsewhere e member, rfl⟩

theorem take_append (memory : Memory) (symbols : Symbols) (first second : List Edge) :
    take memory symbols (first ++ second) = (do
      match ← take memory symbols first with
      | some next => return some next
      | none => take memory symbols second) := by
  induction first with
  | nil => rfl
  | cons e rest ih =>
    rw [List.cons_append, take_cons, take_cons, ih]
    cases isOpen symbols e with
    | error failure => rfl
    | ok isOpen =>
      cases isOpen with
      | true => cases pass memory symbols e <;> rfl
      | false => rfl

theorem take_closed {closed : List Edge} (guards : ∀ e ∈ closed, isOpen symbols e = .ok false)
    (rest : List Edge) : take memory symbols (closed ++ rest) = take memory symbols rest := by
  induction closed with
  | nil => rfl
  | cons e others ih =>
    rw [List.cons_append, take_cons, guards e List.mem_cons_self]
    exact ih fun other member => guards other (List.mem_cons_of_mem e member)

theorem take_plain {e : Edge} (plain : e.isPlain = true) (rest : List Edge) : take memory symbols
    (e :: rest) = .ok (some (e.target, symbols)) := by
  simp only [Edge.isPlain, Bool.and_eq_true, Option.isNone_iff_eq_none, Dict.isEmpty,
    List.isEmpty_iff] at plain
  rw [take_cons, isOpen, pass, plain.1, plain.2]
  rfl

def operandValue (symbols : Symbols) : Operand → Outcome Int
  | .const value => .ok value
  | .symbol name =>
    match symbols.get? name with
    | some value => .ok value
    | none => halt (.unsetSymbol name)

theorem isOpen_guarded (symbols : Symbols) {e : Edge} {lhs : Operand} {rhs : Int}
    (guarded : e.guard? = some ⟨lhs, rhs⟩) :
    isOpen symbols e = (do return (← operandValue symbols lhs) == rhs) := by
  rw [isOpen, guarded]
  cases lhs with
  | const value => rfl
  | symbol name =>
    simp only [Guard.holds, operandValue]
    cases symbols.get? name <;> rfl

def BypassesAlike (memory : Memory) (symbols : Symbols) (before after : Edge) (later : List Edge) :
    Prop :=
  take memory symbols (later ++ [bypassing before after]) = take memory symbols (before :: later) ∧
      (∀ next, take memory symbols (before :: later) = .ok (some next) → ∃ e ∈ later,
        e.target = next.1) ∨
    ∃ symbols', take memory symbols (before :: later) = .ok (some (before.target, symbols')) ∧
      take memory symbols (later ++ [bypassing before after]) = take memory symbols' [after]

theorem take_bypassing (memory : Memory) (symbols : Symbols) {before after : Edge}
    {later : List Edge} (plain : before.isPlain = true ∨ after.isPlain = true)
    (excludes : ∀ e ∈ later, before.Excludes e) :
    BypassesAlike memory symbols before after later := by
  cases isPlain : before.isPlain with
  | true =>
    -- Nothing can be excluded by a plain edge, so `before` is the last one.
    have last : later = [] := by
      rcases later with _ | ⟨e, rest⟩
      · rfl
      · exact absurd isPlain (by simp [(excludes e List.mem_cons_self).not_plain])
    subst last
    right
    refine ⟨symbols, take_plain isPlain [], ?_⟩
    rw [List.nil_append, take_cons, take_cons]
    simp [bypassing, isPlain, isOpen, pass]
  | false =>
    have plainAfter : after.isPlain = true := plain.resolve_left (by simp [isPlain])
    have passes : pass memory symbols (bypassing before after) = pass memory symbols before := by
      simp [pass, bypassing, isPlain]
    have opens : isOpen symbols (bypassing before after) = isOpen symbols before := by
      simp [isOpen, bypassing, isPlain]
    -- Once `before` is open and the later edges are closed, it depends on the assignments alone.
    have taken (open_ : isOpen symbols before = .ok true) (closed : ∀ e ∈ later,
      isOpen symbols e = .ok false) :
        BypassesAlike memory symbols before after later := by
      rw [BypassesAlike]
      rw [take_closed closed, take_cons, take_cons, opens, open_, passes]
      cases pass memory symbols before with
      | error failure =>
        left
        exact ⟨rfl, fun next impossible => by cases impossible⟩
      | ok symbols' =>
        right
        exact ⟨symbols', rfl, (take_plain plainAfter []).symm⟩
    cases guarded : before.guard? with
    | none =>
      refine taken (by rw [isOpen, guarded]) ?_
      intro e member
      obtain ⟨lhs, rhs, rhs', here, -, -⟩ := excludes e member
      rw [guarded] at here
      cases here
    | some guard =>
      obtain ⟨lhs, rhs⟩ := guard
      have others (e : Edge) (member : e ∈ later) : ∃ rhs', e.guard? = some ⟨lhs, rhs'⟩ ∧
        rhs ≠ rhs' := by
        obtain ⟨lhs', one, other, here, there, differ⟩ := excludes e member
        rw [guarded] at here
        cases here
        exact ⟨other, there, differ⟩
      have opensBefore := isOpen_guarded symbols guarded
      cases value : operandValue symbols lhs with
      | error failure =>
        left
        rw [value] at opensBefore
        have fails : take memory symbols (before :: later) = .error failure := by
          rw [take_cons, opensBefore]
          rfl
        refine ⟨?_, fun next impossible => by rw [fails] at impossible; cases impossible⟩
        rw [fails]
        rcases later with _ | ⟨e, rest⟩
        · rw [List.nil_append, take_cons, opens, opensBefore]
          rfl
        · obtain ⟨rhs', guarded', -⟩ := others e List.mem_cons_self
          rw [List.cons_append, take_cons, isOpen_guarded symbols guarded', value]
          rfl
      | ok v =>
        rw [value] at opensBefore
        by_cases holds : v = rhs
        · refine taken (by simp [opensBefore, holds]) ?_
          intro e member
          obtain ⟨rhs', guarded', differ⟩ := others e member
          rw [isOpen_guarded symbols guarded', value, holds]
          simp [differ]
        · have closed : isOpen symbols before = .ok false := by simp [opensBefore, holds]
          have skips : take memory symbols (before :: later) = take memory symbols later := by
            rw [take_cons, closed]
            rfl
          rw [BypassesAlike, skips]
          left
          constructor
          · rw [take_append, take_cons, opens, closed]
            rcases take memory symbols later with failure | (_ | next) <;> rfl
          · intro next taken
            exact take_target taken

variable (compiled : g.states.mapM compileState = .ok effects)

include compiled

theorem effectOf_eq (id : Nat) : effectOf effects id = (do compileState (← g.state id)) := by
  rw [mapM_eq_ok] at compiled
  rw [effectOf, Graph.state]
  generalize g.states = states at compiled
  induction compiled generalizing id with
  | nil => rfl
  | cons head _ ih =>
    cases id with
    | zero => simp [head]
    | succ id => simpa using ih id

theorem turn_eq (id : Nat) (memory : Memory) (symbols : Symbols) :
    turn g effects id memory symbols = (do
      let effect ← compileState (← g.state id)
      onward (← effect memory symbols) symbols (g.outEdges id)) := by
  rw [turn, effectOf_eq compiled]
  simp only [bind_assoc]
  rfl

theorem turn_of_state {s : State} (state : g.states[id]? = some s) :
    ∃ effect, compileState s = .ok effect ∧ ∀ memory symbols, turn g effects id memory symbols =
      (do onward (← effect memory symbols) symbols (g.outEdges id)) := by
  have all := Outcome.succeeds_mapM.mp ⟨effects, compiled⟩
  obtain ⟨effect, known⟩ := all s (List.mem_of_getElem? state)
  refine ⟨effect, known, ?_⟩
  intro memory symbols
  rw [turn_eq compiled, Graph.state, state]
  simp [known]

theorem turn_of_empty {label : String} (state : g.states[id]? = some ⟨label, []⟩) (memory : Memory)
    (symbols : Symbols) :
    turn g effects id memory symbols = onward memory symbols (g.outEdges id) := by
  obtain ⟨effect, known, turns⟩ := turn_of_state compiled state
  cases known
  exact turns memory symbols

omit compiled

section Without

variable {g : Graph} {gone start : Nat} {states : List State} {edges : List Edge}
  {effects effects' : List Effect}

theorem turnMatch_without (avoids : Avoids edges gone)
    (compiled : g.states.mapM compileState = .ok effects)
    (compiled' : (g.without gone states edges start).states.mapM compileState = .ok effects')
    (ne : id ≠ gone) (state : states[id]? = g.states[id]?)
    (leaving : (edges.filter fun e => e.source = id) = g.outEdges id) (memory : Memory)
    (symbols : Symbols) : TurnMatch (Moved gone) (turn g effects id memory symbols)
      (turn (g.without gone states edges start) effects' (shifted gone id) memory symbols) := by
  rw [turn_eq compiled, turn_eq compiled', outEdges_without avoids, Graph.state, Graph.state,
    state_without,
    restored_shifted ne, state, leaving]
  cases g.states[id]? with
  | none => exact .fails _
  | some s =>
    simp only [ok_bind]
    cases compileState s with
    | error failure => exact .fails failure
    | ok effect =>
      simp only [ok_bind]
      cases effect memory symbols with
      | error failure => exact .fails failure
      | ok after =>
        refine onward_moved (fun _ _ => ⟨rfl, rfl, rfl⟩) fun e member => ?_
        rw [← leaving] at member
        exact (avoids e (List.mem_of_mem_filter member)).2

end Without

theorem TurnMatch.mono {related related' : Nat → Nat → Prop}
    (weaker : ∀ id id', related id id' → related' id id')
    {result result' : Outcome Turn} (matched : TurnMatch related result result') :
    TurnMatch related' result result' := by
  cases matched with
  | fails failure => exact .fails failure
  | stops memory => exact .stops memory
  | moves memory symbols targets => exact .moves memory symbols (weaker _ _ targets)

end Machine

namespace Graph

open Machine Program

variable {g : Graph} {effects effects' : List Effect}

variable {e before after : Edge} {earlier later : List Edge} {gone : Nat}

theorem HandsOver.catchesUp (step : g.HandsOver e)
    (compiled : g.states.mapM compileState = .ok effects)
    (compiled' : (g.without g.start g.states (g.edgesAway g.start) e.target).states.mapM
      compileState = .ok effects') :
    CatchesUp g effects (g.without g.start g.states (g.edgesAway g.start) e.target) effects'
      fun id id' => Moved g.start id id' ∨ id = g.start ∧ id' = shifted g.start e.target := by
  have stay (id : Nat) (ne : id ≠ g.start) (memory : Memory) (symbols : Symbols) :=
    turnMatch_without (avoids_edgesAway g g.start) compiled compiled' ne rfl
      (step.edgesAway_filter ne) memory symbols
  intro id id' memory symbols place
  rcases place with ⟨ne, rfl⟩ | ⟨rfl, rfl⟩
  · exact ⟨0, _, .here, (stay id ne memory symbols).mono fun _ _ => .inl⟩
  · obtain ⟨label, empty⟩ := step.empty
    have entered : turn g effects g.start memory symbols = .ok (memory,
      some (e.target, symbols)) := by
      rw [turn_of_empty compiled empty, step.exit, onward, take_plain step.plain]
      rfl
    have ne := step.target_ne e step.mem.1
    exact ⟨1, _, .later entered .here, (stay e.target ne memory symbols).mono fun _ _ => .inl⟩

theorem PassesThrough.split (step : g.PassesThrough gone before after) (orderly : g.Orderly) :
    ∃ earlier later, g.outEdges before.source = earlier ++ before :: later ∧
      ((g.edgesAway gone).filter fun e => e.source = before.source) = earlier ++ later ∧
      ∀ e ∈ later, before.Excludes e := by
  obtain ⟨member, target⟩ := step.mem_before
  have leaving : before ∈ g.outEdges before.source := by simp [outEdges, member]
  obtain ⟨earlier, later, split⟩ := List.append_of_mem leaving
  have only : (g.outEdges before.source).filter (fun e => e.target = gone) = [before] := by
    have entry := step.entry
    rw [inEdges] at entry
    rw [outEdges, List.filter_comm, entry]
    simp
  have elsewhere : ∀ e ∈ earlier ++ later, e.target ≠ gone := by
    rw [split] at only
    have count := congrArg List.length only
    rw [← List.countP_eq_length_filter, List.perm_middle.countP_eq, List.countP_cons] at count
    simp only [target, decide_true, if_true, List.length_singleton, Nat.add_eq_right,
      List.countP_eq_zero,
      decide_eq_true_eq] at count
    exact count
  refine ⟨earlier, later, split, ?_, ?_⟩
  · have away : ((g.edgesAway gone).filter fun e => e.source = before.source) =
        (g.outEdges before.source).filter fun e => e.target ≠ gone := by
      rw [edgesAway, outEdges, List.filter_filter, List.filter_filter]
      apply List.filter_congr
      grind [step.source]
    rw [away, split]
    simp only [List.filter_append, List.filter_cons, target, ne_eq, not_true_eq_false, decide_false,
      Bool.false_eq_true, if_false]
    rw [← List.filter_append, List.filter_eq_self]
    simpa using elsewhere
  · intro e late
    have ordered : (g.outEdges before.source).Pairwise fun e later =>
        e.source = later.source → g.Detour e.target → e.Excludes later :=
          List.Pairwise.filter _ orderly
    rw [split, List.pairwise_append, List.pairwise_cons] at ordered
    have known : e ∈ g.outEdges before.source := by simp [split, late]
    have source : e.source = before.source := by simpa using (List.mem_filter.mp known).2
    exact ordered.2.1.1 e late source.symm (target ▸ step.detour)

theorem PassesThrough.filter_other (step : g.PassesThrough gone before after)
    (notSource : id ≠ before.source) (notGone : id ≠ gone) :
    ((g.edgesAway gone ++ [bypassing before after]).filter fun e => e.source = id) =
    g.outEdges id := by
  have away : (g.edgesAway gone).filter (fun e => e.source = id) = g.outEdges id := by
    rw [edgesAway, outEdges, List.filter_filter]
    apply List.filter_congr
    intro e member
    have elsewhere : e.source = id → e.target ≠ gone := by
      intro source target
      have entering : e ∈ g.inEdges gone := by simp [inEdges, member, target]
      rw [step.entry, List.mem_singleton] at entering
      exact notSource (source ▸ entering ▸ rfl)
    grind
  rw [List.filter_append, away]
  simp [notSource.symm]

theorem onward_bypassing (plain : before.isPlain = true ∨ after.isPlain = true)
    (excludes : ∀ e ∈ later, before.Excludes e)
    (elsewhere : ∀ e ∈ earlier ++ later, e.target ≠ gone) (memory : Memory) (symbols : Symbols) :
    TurnMatch (Moved gone) (onward memory symbols (earlier ++ before :: later))
        ((onward memory symbols (earlier ++ later ++ [bypassing before after])).map
          (Turn.renumbered (shifted gone))) ∨
      ∃ symbols', onward memory symbols (earlier ++ before :: later) =
          .ok (memory, some (before.target, symbols')) ∧
        onward memory symbols (earlier ++ later ++ [bypassing before after]) =
        onward memory symbols' [after] := by
  rw [onward, onward, List.append_assoc, take_append, take_append]
  rcases taken : take memory symbols earlier with failure | (_ | ⟨target, symbols'⟩)
  · exact .inl (.fails failure)
  · simp only [ok_bind]
    rcases take_bypassing memory symbols plain excludes with
      ⟨same, targets⟩ | ⟨symbols', first, second⟩
    · left
      rw [same]
      apply TurnMatch.renumbered
      intro _ target symbols' moved
      rw [bind_eq_ok] at moved
      obtain ⟨next, taken, moved⟩ := moved
      cases moved
      obtain ⟨e, member, rfl⟩ := targets _ taken
      exact ⟨elsewhere e (List.mem_append_right _ member), rfl⟩
    · right
      exact ⟨symbols', by rw [first]; rfl, by rw [second]; rfl⟩
  · left
    obtain ⟨e, member, rfl⟩ := take_target taken
    exact .moves memory symbols' ⟨elsewhere e (List.mem_append_left _ member), rfl⟩

theorem PassesThrough.catchesUp (step : g.PassesThrough gone before after) (inRange : g.InRange)
    (orderly : g.Orderly) (compiled : g.states.mapM compileState = .ok effects)
    (compiled' : (g.without gone g.states (g.edgesAway gone ++ [bypassing before after])
      g.start).states.mapM compileState = .ok effects') :
    CatchesUp g effects (g.without gone g.states (g.edgesAway gone ++ [bypassing before after])
      g.start) effects' (Moved gone) := by
  rintro id _ memory symbols ⟨ne, rfl⟩
  by_cases atSource : id = before.source
  · subst atSource
    obtain ⟨entering, target⟩ := step.mem_before
    obtain ⟨s, state⟩ : ∃ s, g.states[before.source]? = some s :=
      ⟨_, List.getElem?_eq_getElem (inRange.edges before entering).1⟩
    obtain ⟨effect, known, turns⟩ := turn_of_state compiled state
    have state' : (g.without gone g.states (g.edgesAway gone ++ [bypassing before after])
      g.start).states[
        shifted gone before.source]? = some s := by
      rw [state_without, restored_shifted ne, state]
    obtain ⟨effect', known', turns'⟩ := turn_of_state compiled' state'
    obtain rfl : effect = effect' := Except.ok.inj (known.symm.trans known')
    obtain ⟨earlier, later, split, away, excludes⟩ := step.split orderly
    rw [turns', outEdges_without step.avoids, restored_shifted ne, List.filter_append, away]
    have single : [bypassing before after].filter (fun e => e.source = before.source) =
      [bypassing before after] := by
      simp
    rw [single]
    have elsewhere (e : Edge) (member : e ∈ earlier ++ later) : e.target ≠ gone := by
      rw [← away] at member
      exact (avoids_edgesAway g gone e (List.mem_of_mem_filter member)).2
    cases ran : effect memory symbols with
    | error failure => exact ⟨0, _, .here, by rw [turns, ran]; exact .fails failure⟩
    | ok ranMemory =>
      have turned : turn g effects before.source memory symbols =
          onward ranMemory symbols (earlier ++ before :: later) := by rw [turns, ran, split]; rfl
      simp only [ok_bind]
      rw [onward_renumbered]
      rcases onward_bypassing step.plain excludes elsewhere ranMemory symbols with
        matched | ⟨symbols', first, second⟩
      · exact ⟨0, _, .here, turned ▸ matched⟩
      · obtain ⟨label, empty⟩ := step.empty
        refine ⟨1, _, .later (turned.trans first) .here, ?_⟩
        rw [target, turn_of_empty compiled empty, step.exit, second, ← onward_renumbered]
        exact onward_moved (fun _ _ => ⟨rfl, rfl, rfl⟩) (by simpa using step.target)
  · exact ⟨0, _, .here, turnMatch_without step.avoids compiled compiled' ne rfl
      (step.filter_other atSource ne)
      memory symbols⟩

theorem Chains.catchesUp (step : g.Chains e earlier later) {head tail : State}
    (source : g.states[e.source]? = some head)
    (target : g.states[e.target]? = some tail) (compiled : g.states.mapM compileState = .ok effects)
    (compiled' : (g.without e.target (g.joined e tail) ((earlier ++ later).map (handed e))
      g.start).states.mapM compileState = .ok effects') :
    CatchesUp g effects (g.without e.target (g.joined e tail) ((earlier ++ later).map (handed e))
      g.start) effects' (Moved e.target) := by
  rintro id _ memory symbols ⟨ne, rfl⟩
  by_cases atSource : id = e.source
  · subst atSource
    obtain ⟨first, knownFirst, turnsFirst⟩ := turn_of_state compiled source
    obtain ⟨second, knownSecond, turnsSecond⟩ := turn_of_state compiled target
    have state' := state_joined (g := g) tail ((earlier ++ later).map (handed e)) g.start ne
    rw [source, Option.map_some, if_pos rfl] at state'
    obtain ⟨both, known, turns⟩ := turn_of_state compiled' state'
    have same : both = first.andThen second := by
      rw [compileState] at knownFirst knownSecond known
      simpa [compileNodes_append, knownFirst, knownSecond, eq_comm] using known
    have leaving : g.outEdges e.source = [e] := by
      have count := step.exit
      have member : e ∈ g.outEdges e.source := by simp [outEdges, step.split]
      obtain ⟨only, single⟩ := List.length_eq_one_iff.mp count
      rw [single, List.mem_singleton] at member
      rw [single, member]
    rw [turns, same, outEdges_without step.avoids, restored_shifted ne, step.filter_source,
      Effect.andThen]
    cases ran : first memory symbols with
    | error failure => exact ⟨0, _, .here, by rw [turnsFirst, ran]; exact .fails failure⟩
    | ok memory' =>
      have moved : turn g effects e.source memory symbols = .ok (memory',
        some (e.target, symbols)) := by
        rw [turnsFirst, ran, leaving, ok_bind, onward, take_plain step.plain]
        rfl
      refine ⟨1, _, .later moved .here, ?_⟩
      rw [turnsSecond, ok_bind]
      cases second memory' symbols with
      | error failure => exact .fails failure
      | ok memory'' =>
        simp only [ok_bind]
        rw [List.map_map]
        refine onward_moved (by simp) fun other member => ?_
        obtain ⟨known, fromTarget⟩ : other ∈ g.edges ∧ other.source = e.target := by
          simpa [outEdges] using member
        rcases List.mem_cons.mp (step.perm.subset known) with rfl | rest
        · exact absurd fromTarget step.apart
        · exact step.target_ne other rest
  · have state : (g.joined e tail)[id]? = g.states[id]? := by
      simp [joined, Ne.symm atSource]
    exact ⟨0, _, .here, turnMatch_without step.avoids compiled compiled' ne state
      (step.filter_other atSource ne)
      memory symbols⟩

end Graph

end TraceFlow
