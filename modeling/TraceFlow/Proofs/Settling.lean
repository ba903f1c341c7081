import Mathlib.Data.Finset.Card
import Mathlib.Data.Finset.Range
import TraceFlow.Machine.Program
import TraceFlow.Proofs.Outcome
import TraceFlow.Proofs.Reachability

set_option autoImplicit false

namespace TraceFlow.Machine

open List

variable {result : Outcome Memory} {remaining id target : Nat} {memory : Memory} {symbols : Symbols}

abbrev Turn := Memory × Option (Nat × Symbols)

def turn (g : Graph) (effects : List Effect) (id : Nat) (memory : Memory) (symbols : Symbols) :
    Outcome Turn := do
  let memory ← (← effectOf effects id) memory symbols
  return (memory, ← take memory symbols (g.outEdges id))

-- The outcome of a run, or `none` if it is still on its way when no transition remains.
def settle? (g : Graph) (effects : List Effect) : Nat → Nat → Memory → Symbols → Option
    (Outcome Memory)
  | remaining, id, memory, symbols =>
    match turn g effects id memory symbols with
    | .error failure => some (.error failure)
    | .ok (memory, none) => some (.ok memory)
    | .ok (memory, some (target, symbols)) =>
      match remaining with
      | 0 => none
      | remaining + 1 => settle? g effects remaining target memory symbols

variable {g g' : Graph} {effects effects' : List Effect}

theorem walk_eq_settle? (remaining id : Nat) (memory : Memory) (symbols : Symbols) :
    walk g effects remaining id memory symbols =
      (settle? g effects remaining id memory symbols).getD
        (halt (.noTermination g.name (transitionLimit effects.length))) := by
  induction remaining generalizing id memory symbols with
  | zero =>
    rw [walk, settle?, turn]
    cases effectOf effects id with
    | error failure => rfl
    | ok effect =>
      cases ran : effect memory symbols with
      | error failure => simp [ran]
      | ok after =>
        rcases next : take after symbols (g.outEdges id) with failure | (_ | ⟨target, symbols'⟩) <;>
          simp [ran, next]
  | succ remaining ih =>
    rw [walk, settle?, turn]
    cases effectOf effects id with
    | error failure => rfl
    | ok effect =>
      cases ran : effect memory symbols with
      | error failure => simp [ran]
      | ok after =>
        rcases next : take after symbols (g.outEdges id) with failure | (_ | ⟨target, symbols'⟩) <;>
          simp [ran, next, ih]

theorem settle?_succ (settled : settle? g effects remaining id memory symbols = some result) :
    settle? g effects (remaining + 1) id memory symbols = some result := by
  induction remaining generalizing id memory symbols with
  | zero =>
    rw [settle?] at settled ⊢
    rcases turned : turn g effects id memory symbols with
      failure | ⟨after, (_ | ⟨target, symbols'⟩)⟩ <;>
      simp only [turned] at settled ⊢ <;> first | exact settled | cases settled
  | succ remaining ih =>
    rw [settle?] at settled ⊢
    rcases turned : turn g effects id memory symbols with
      failure | ⟨after, (_ | ⟨target, symbols'⟩)⟩ <;>
      simp only [turned] at settled ⊢
    · exact settled
    · exact settled
    · exact ih settled

theorem settle?_mono {few many : Nat}
    (settled : settle? g effects few id memory symbols = some result) (le : few ≤ many) :
    settle? g effects many id memory symbols = some result := by
  induction le with
  | refl => exact settled
  | step _ ih => exact settle?_succ ih

inductive Arrives (g : Graph) (effects : List Effect) : Nat → Nat → Memory → Symbols →
    Outcome Turn → Prop
  | here {id : Nat} {memory : Memory} {symbols : Symbols} :
    Arrives g effects 0 id memory symbols (turn g effects id memory symbols)
  | later {count id target : Nat} {memory after : Memory} {symbols symbols' : Symbols}
    {result : Outcome Turn} :
    turn g effects id memory symbols = .ok (after, some (target, symbols')) →
    Arrives g effects count target after symbols' result →
    Arrives g effects (count + 1) id memory symbols result

-- Two turns that fail alike, stop alike or go on to related states.
inductive TurnMatch (related : Nat → Nat → Prop) : Outcome Turn → Outcome Turn → Prop
  | fails (failure : Failure) : TurnMatch related (.error failure) (.error failure)
  | stops (memory : Memory) : TurnMatch related (.ok (memory, none)) (.ok (memory, none))
  | moves {target target' : Nat} (memory : Memory) (symbols : Symbols) : related target target' →
    TurnMatch related (.ok (memory, some (target, symbols))) (.ok (memory, some (target', symbols)))

-- Every turn of the second machine is caught up with by the first.
def CatchesUp (g : Graph) (effects : List Effect) (g' : Graph) (effects' : List Effect)
    (related : Nat → Nat → Prop) : Prop :=
  ∀ id id' memory symbols, related id id' →
    ∃ count result, Arrives g effects count id memory symbols result ∧
      TurnMatch related result (turn g' effects' id' memory symbols)

def Remains (g : Graph) (effects : List Effect) (remaining : Nat) (result : Outcome Memory) :
    Outcome Turn → Prop
  | .error failure => result = .error failure
  | .ok (after, none) => result = .ok after
  | .ok (after, some (target, symbols)) =>
    ∃ left, left + 1 ≤ remaining ∧ settle? g effects left target after symbols = some result

theorem remains_of_arrives {count : Nat} {turned : Outcome Turn}
    (arrives : Arrives g effects count id memory symbols turned)
    (settled : settle? g effects remaining id memory symbols = some result) :
    Remains g effects remaining result turned := by
  induction arrives generalizing remaining with
  | @here id memory symbols =>
    rw [settle?] at settled
    rcases turned : turn g effects id memory symbols with
      failure | ⟨after, (_ | ⟨target, symbols'⟩)⟩ <;>
      simp only [turned] at settled
    · exact (Option.some.inj settled).symm
    · exact (Option.some.inj settled).symm
    · cases remaining with
      | zero => cases settled
      | succ remaining => exact ⟨remaining, Nat.le_refl _, settled⟩
  | @later _ _ _ _ _ _ _ turned moved _ ih =>
    rw [settle?, moved] at settled
    cases remaining with
    | zero => cases settled
    | succ remaining =>
      have rest := ih settled
      rcases turned with failure | ⟨after, (_ | ⟨target, symbols'⟩)⟩
      · exact rest
      · exact rest
      · obtain ⟨left, bound, settled⟩ := rest
        exact ⟨left, by omega, settled⟩

theorem CatchesUp.settle? {related : Nat → Nat → Prop}
    (catchesUp : CatchesUp g effects g' effects' related) {id' : Nat} (match_ : related id id')
    (settled : settle? g effects remaining id memory symbols = some result) :
    Machine.settle? g' effects' remaining id' memory symbols = some result := by
  induction remaining using Nat.strongRecOn generalizing id id' memory symbols with
  | _ remaining ih =>
    obtain ⟨count, turned, arrives, matched⟩ := catchesUp id id' memory symbols match_
    have rest := remains_of_arrives arrives settled
    rw [Machine.settle?]
    generalize turn g' effects' id' memory symbols = turned' at matched
    cases matched with
    | fails failure => exact congrArg some (Eq.symm rest)
    | stops after => exact congrArg some (Eq.symm rest)
    | moves after symbols' targets =>
      obtain ⟨left, bound, settled'⟩ := rest
      obtain ⟨more, rfl⟩ : ∃ more, remaining = more + 1 := ⟨remaining - 1, by omega⟩
      exact settle?_mono (ih left (by omega) targets settled') (by omega)

def isOpen (symbols : Symbols) (e : Edge) : Outcome Bool :=
  match e.guard? with
  | none => .ok true
  | some guard => Guard.holds guard symbols

def pass (memory : Memory) (symbols : Symbols) (e : Edge) : Outcome Symbols := do
  return assign symbols (← assigned memory symbols e.assignments.entries)

theorem take_cons (memory : Memory) (symbols : Symbols) (e : Edge) (rest : List Edge) :
    take memory symbols (e :: rest) = (do
      if ← isOpen symbols e then return some (e.target, ← pass memory symbols e)
      else take memory symbols rest) := by
  rw [take, isOpen, pass]
  cases e.guard? with
  | none => cases assigned memory symbols e.assignments.entries <;> rfl
  | some guard =>
    cases held : Guard.holds guard symbols with
    | error failure => simp [held]
    | ok passes =>
      cases assigned memory symbols e.assignments.entries <;> simp [held]

theorem take_target {symbols' : Symbols} {edges : List Edge}
    (taken : take memory symbols edges = .ok (some (target, symbols'))) :
    ∃ e ∈ edges, e.target = target := by
  induction edges with
  | nil => cases taken
  | cons e rest ih =>
    rw [take_cons, bind_eq_ok] at taken
    obtain ⟨passes, -, taken⟩ := taken
    cases passes with
    | true =>
      rw [if_pos rfl, bind_eq_ok] at taken
      obtain ⟨values, -, taken⟩ := taken
      cases taken
      exact ⟨e, mem_cons_self, rfl⟩
    | false =>
      obtain ⟨found, member, same⟩ := ih taken
      exact ⟨found, mem_cons_of_mem e member, same⟩

theorem turn_leads {after : Memory} {symbols' : Symbols}
    (moved : turn g effects id memory symbols = .ok (after, some (target, symbols'))) :
    g.Leads id target := by
  simp only [turn, bind_eq_ok] at moved
  obtain ⟨_, _, _, _, next, taken, moved⟩ := moved
  cases moved
  obtain ⟨e, member, rfl⟩ := take_target taken
  simp only [Graph.outEdges, mem_filter, decide_eq_true_eq] at member
  exact ⟨e, member.1, member.2, rfl⟩

def height (g : Graph) (rank : Nat → Nat) (id : Nat) : Nat :=
  ((Finset.range g.states.length).filter fun other => rank other < rank id).card

theorem height_lt (rank : Nat → Nat) (inside : id < g.states.length) :
    height g rank id < g.states.length := by
  have strict : ((Finset.range g.states.length).filter fun other => rank other < rank id) ⊂
      Finset.range g.states.length := by
    apply Finset.filter_ssubset.mpr
    exact ⟨id, Finset.mem_range.mpr inside, Nat.lt_irrefl _⟩
  simpa [height] using Finset.card_lt_card strict

theorem height_lt_height {rank : Nat → Nat} {source : Nat} (inside : source < g.states.length)
    (higher : rank source < rank target) : height g rank source < height g rank target := by
  apply Finset.card_lt_card
  rw [Finset.ssubset_iff_of_subset]
  · refine ⟨source, ?_, ?_⟩
    · exact Finset.mem_filter.mpr ⟨Finset.mem_range.mpr inside, higher⟩
    · simp
  · intro other member
    simp only [Finset.mem_filter] at member ⊢
    exact ⟨member.1, member.2.trans higher⟩

theorem settles_of_acyclic (acyclic : g.Acyclic) (inRange : g.InRange)
    (inside : id < g.states.length) (enough : g.states.length ≤ remaining + 1)
    (memory : Memory) (symbols : Symbols) :
    ∃ result, settle? g effects remaining id memory symbols = some result := by
  obtain ⟨rank, increasing⟩ := acyclic
  -- Each transition goes up in `height`, which stays below the number of states.
  have climb (remaining id : Nat) (memory : Memory) (symbols : Symbols)
    (inside : id < g.states.length)
      (enough : g.states.length ≤ remaining + 1 + height g rank id) :
      ∃ result, settle? g effects remaining id memory symbols = some result := by
    induction remaining generalizing id memory symbols with
    | zero =>
      rw [settle?]
      rcases turned : turn g effects id memory symbols with
        failure | ⟨after, (_ | ⟨target, symbols'⟩)⟩
      · exact ⟨_, rfl⟩
      · exact ⟨_, rfl⟩
      · obtain ⟨e, member, rfl, rfl⟩ := turn_leads turned
        have ends := inRange.edges e member
        have below := height_lt (g := g) rank ends.2
        have step := height_lt_height (g := g) ends.1 (increasing e member)
        omega
    | succ remaining ih =>
      rw [settle?]
      rcases turned : turn g effects id memory symbols with
        failure | ⟨after, (_ | ⟨target, symbols'⟩)⟩
      · exact ⟨_, rfl⟩
      · exact ⟨_, rfl⟩
      · obtain ⟨e, member, rfl, rfl⟩ := turn_leads turned
        have ends := inRange.edges e member
        have step := height_lt_height (g := g) ends.1 (increasing e member)
        exact ih e.target after symbols' ends.2 (by omega)
  exact climb remaining id memory symbols inside (by omega)

end TraceFlow.Machine
