import TraceFlow.Proofs.ClosedGraphs

set_option autoImplicit false

namespace TraceFlow

open List
open Outcome (Safe Tame)

variable {name : String} {r : Routine} {loose : String → Prop}

namespace Executable

variable {args : List Argument} {x : Executable} {memory : Memory}

theorem tame_call (accepted : x.accept args = .ok memory)
    (serves : Effect.Serves loose x.graph.arrays x.program.run)
    (foreign : ∀ name d, x.graph.arrays.get? name = some d → d.transient = false →
      name ∈ x.inputs ++ x.outputs) :
    Tame loose (fun outputs => outputs.length = x.outputs.length) (x.call args) := by
  have set := Accepted.of_accept accepted
  have holds (name : String) (d : Descriptor) (known : x.graph.arrays.get? name = some d)
    (member : name ∈ x.inputs ++ x.outputs) :
      memory.Holds name d := by
    obtain ⟨t, found⟩ := set.present member
    obtain ⟨d', known', typed⟩ := set.typed found
    cases known.symm.trans known'
    exact ⟨t, found, typed⟩
  rw [call_eq, accepted, ok_bind]
  refine (serves memory {} fun name d known own => holds name d known
    (foreign name d known own)).bind fun after kept => .inl ?_
  have read : ∀ names : List String, (∀ name ∈ names, name ∈ x.outputs) →
      Safe (fun outputs : List Tensor => outputs.length = names.length)
        (names.mapM (readOutput after)) := by
    intro names
    induction names with
    | nil => exact fun _ => .gives rfl
    | cons name rest ih =>
      intro listed
      obtain ⟨t, found⟩ := set.present (mem_append_right _ (listed name mem_cons_self))
      obtain ⟨d, known, -⟩ := set.typed found
      obtain ⟨u, result, -⟩ := kept name d known (by rw [found]; rfl)
      have here : readOutput after name = .ok u := by rw [readOutput, result]
      rw [mapM_cons, here, ok_bind]
      exact (ih fun other member => listed other (mem_cons_of_mem _ member)).bind
        fun outputs length => .gives (congrArg (· + 1) length)
  exact read x.outputs fun _ => id

end Executable

theorem Routine.mem_signature {d : Draft} {specs : List ArgSpec}
    (made : d.toRoutine specs true = .ok r)
    {array : Descriptor} (known : r.graph.arrays.get? name = some array)
    (foreign : array.transient = false) : name ∈ r.inputs ++ r.outputs := by
  obtain ⟨feeds, feeds', stages, rfl, checked⟩ := toRoutine_iff.mp made
  obtain ⟨-, -, -, valid⟩ := Routine.check_eq_ok.mp (checked rfl)
  have used : ((feeds.map Feed.array).isEmpty && (feeds'.map Feed.array).isEmpty) = false := by
    simpa using stages.used
  exact (mem_distinct _).mp (valid.mem_args (distinct_ne_nil used) known foreign)

-- Compiled under whatever options, a function runs like its graph as it was drafted, which provides
-- all that it needs.
theorem Lowers.exists_plain {fuel : Nat} {f : Lambda} {d : Draft} {specs : List ArgSpec}
    {options : Options} {x : Executable} (lowers : Lowers fuel f d)
    (loose : String → Prop) (exponents : loose "NaN" ∨ f.Throughout Equation.WholeExponent)
    (finished : d.toRoutine specs true = .ok r)
    (compiled : (do Executable.ofRoutine (← r.optimized .cpu options) .cpu) = .ok x) :
    ∃ plain, Executable.Optimizes r plain x ∧
    Effect.Serves loose plain.graph.arrays plain.program.run ∧
      ∀ name d, plain.graph.arrays.get? name = some d → d.transient = false → name ∈ plain.inputs ++
      plain.outputs := by
  obtain ⟨-, -, -, valid⟩ := Routine.check_eq_ok.mp (Routine.checked_of_toRoutine finished)
  obtain ⟨plain, made, optimizes⟩ := (lowers.both_optimized finished options).to_ok compiled
  have serves := Graph.serves_of_closed (closed_of_toRoutine lowers exponents finished) valid
    (Executable.compile_of_ofRoutine made)
  have signature (name : String) (array : Descriptor) :=
    @Routine.mem_signature name _ _ _ finished array
  refine ⟨plain, optimizes, ?_⟩
  rw [optimizes.plain]
  exact ⟨serves, signature⟩

-- Whatever arguments a compiled function accepts, running it does not fail for want of anything
-- that its graph should provide.
theorem safe_accepted_call {f : Lambda} {name? : Option String} {b b' : Builder} {d : Draft}
    {specs : List ArgSpec} {options : Options} {r optimized : Routine} {x : Executable}
    (lowered : Gives (Lowering.lower .builtin f name?) b d b')
    (whole : f.Throughout Equation.WholeExponent) (finished : d.toRoutine specs true = .ok r)
    (made : r.optimized .cpu options = .ok optimized)
    (compiled : Executable.ofRoutine optimized .cpu = .ok x) {args : List Argument}
    {memory : Memory} (accepted : x.accept args = .ok memory) :
    Safe (fun outputs => outputs.length = x.outputs.length) (x.call args) := by
  obtain ⟨plain, optimizes, serves, foreign⟩ :=
    (lowers_of_gives lowered).exists_plain (fun _ => False) (.inr whole) finished
    (by rw [made, ok_bind, compiled])
  rw [optimizes.call optimizes.runs, optimizes.outputs]
  rw [optimizes.accept] at accepted
  exact (Executable.tame_call accepted serves foreign).resolve_right fun ⟨_, free, _⟩ => free

-- Chooses between its second input and the negative of it, squares the choice, and calls a function
-- that divides the square by the third input.
def dividing : Lambda :=
  let var (id : Nat) (shape : List Nat) : Var := ⟨id, .traced, shape, .int64⟩
  let (x, y, z) := (var 1 [2], var 2 [2], var 6 [2])
  let same : Lambda := ⟨[x], [], [], [], [], [.var x]⟩
  let negative : Lambda := ⟨[x], [], [], [], [⟨"neg", [.var x], [z], {}, false⟩], [.var z]⟩
  let quotient : Lambda := ⟨[x, y], [], [], [], [⟨"div", [.var x, .var y], [z], {}, false⟩],
    [.var z]⟩
  let choice : Equation := ⟨"cond", [.var (var 0 []), .var x], [var 3 [2]],
    Dict.ofList [("branches", .lambdas [same, negative])], false⟩
  let square : Equation := ⟨"integer_pow", [.var (var 3 [2])], [var 4 [2]],
    Dict.ofList [("y", .int 2)], false⟩
  let call : Equation := ⟨"pjit", [.var (var 4 [2]), .var y], [var 5 [2]],
    Dict.ofList [("jaxpr", .lambda quotient)], false⟩
  ⟨[var 0 [], x, y], [], [], [], [choice, square, call], [.var (var 5 [2])]⟩

theorem whole_dividing : dividing.Throughout Equation.WholeExponent := by
  have flat {f : Lambda} (plain : f.equations.all (fun e => e.primitive ≠ "integer_pow" ∧
    e.nested.isEmpty) = true) :
      f.Throughout Equation.WholeExponent := by
    simp only [all_eq_true, decide_eq_true_eq, List.isEmpty_iff] at plain
    refine .intro f (fun e member here => absurd here (plain e member).1)
      fun e member callee inside => ?_
    rw [(plain e member).2] at inside
    cases inside
  refine .intro _ ?_ ?_
  · intro e member here v
    simp only [dividing, mem_cons, not_mem_nil, or_false] at member
    rcases member with rfl | rfl | rfl
    · exact absurd here (by decide)
    · rintro ⟨⟩
    · exact absurd here (by decide)
  · intro e member callee inside
    simp only [dividing, mem_cons, not_mem_nil, or_false] at member
    rcases member with rfl | rfl | rfl
    · rcases mem_pair.mp inside with rfl | rfl
      · exact flat (by decide)
      · exact flat (by decide)
    · cases inside
    · obtain rfl := mem_singleton.mp inside
      exact flat (by decide)

theorem safe_accepted_call_dividing :
    let row (bytes : Array UInt8) : Argument := .tensor ⟨.int64, [2], [1], .cpuHeap, bytes⟩
    let specs : List ArgSpec := [⟨[], .int64, none, .cpuHeap⟩, ⟨[2], .int64, some [1], .cpuHeap⟩,
      ⟨[2], .int64, some [1], .cpuHeap⟩]
    let args : List Argument :=
    [.scalar ⟨.int64, .int 1⟩, row #[3, 0, 0, 0, 0, 0, 0, 0, 5, 0, 0, 0, 0, 0, 0, 0],
      row #[2, 0, 0, 0, 0, 0, 0, 0, 0, 0, 0, 0, 0, 0, 0, 0]]
    ∃ d b r optimized x memory, Gives (Lowering.lower .builtin dividing none) (.new 0) d b ∧
      dividing.Throughout Equation.WholeExponent ∧
      d.toRoutine specs true = .ok r ∧ r.optimized .cpu (.all true) = .ok optimized ∧
      Executable.ofRoutine optimized .cpu = .ok x ∧
      x.accept args = .ok memory ∧ x.call args = .error (.error (.execution .divisionByZero)) ∧
      Safe (fun outputs => outputs.length = x.outputs.length) (x.call args) := by
  intro row specs args
  have ran : (do
      let d ← (Lowering.lower .builtin dividing none (.new 0)).1
      let r ← d.toRoutine specs true
      let optimized ← r.optimized .cpu (.all true)
      let x ← Executable.ofRoutine optimized .cpu
      let _ ← x.accept args
      return (x.call args).map fun _ => ()) = .ok (.error
        (.error (.execution .divisionByZero))) := by decide +kernel
  rcases given : Lowering.lower .builtin dividing none (.new 0) with ⟨outcome, b⟩
  rw [given] at ran
  obtain ⟨d, lowered, ended⟩ := bind_eq_ok.mp ran
  obtain ⟨r, finished, ended⟩ := bind_eq_ok.mp ended
  obtain ⟨optimized, made, ended⟩ := bind_eq_ok.mp ended
  obtain ⟨x, compiled, ended⟩ := bind_eq_ok.mp ended
  obtain ⟨memory, accepted, ended⟩ := bind_eq_ok.mp ended
  have failed : x.call args = .error (.error (.execution .divisionByZero)) := by
    rw [Outcome.pure_eq, Except.ok.injEq] at ended
    rcases failed : x.call args with failure | outputs <;> rw [failed] at ended <;> cases ended
    rfl
  obtain rfl : outcome = .ok d := lowered
  exact ⟨d, b, r, optimized, x, memory, given, whole_dividing, finished, made, compiled, accepted,
    failed,
    safe_accepted_call given whole_dividing finished made compiled accepted⟩

end TraceFlow
