import TraceFlow.Proofs.CallArguments
import TraceFlow.Proofs.LoweredNodes
import TraceFlow.Proofs.Simplification
import TraceFlow.Session

set_option autoImplicit false

namespace TraceFlow

variable {r : Routine} {g : Graph}

namespace Routine

variable {r : Routine}

theorem checkRole_congr (arrays : g.arrays = r.graph.arrays) (name : g.name = r.graph.name)
    (role : String) (names : List String) :
    ({ r with graph := g } : Routine).checkRole role names = r.checkRole role names := by
  have transient : ({ r with graph := g } : Routine).isTransient = r.isTransient := by
    funext name
    simp only [isTransient, Graph.array?, arrays]
  simp only [checkRole, transient, Graph.place, name]

theorem check_eq_ok : r.check = .ok () ↔ r.checkRole "inputs" r.inputs = .ok
    () ∧ r.checkRole "outputs" r.outputs = .ok () ∧
    r.graph.freeSymbols.isEmpty = true ∧ r.graph.Valid := by
  rw [check, ← Graph.check_eq_ok]
  constructor
  · intro checked
    obtain ⟨_, inputs, checked⟩ := bind_eq_ok.mp checked
    obtain ⟨_, outputs, checked⟩ := bind_eq_ok.mp checked
    obtain ⟨closed, valid⟩ := unless_eq_ok.mp checked
    exact ⟨inputs, outputs, by simpa using closed, valid⟩
  · rintro ⟨inputs, outputs, closed, valid⟩
    refine bind_eq_ok.mpr ⟨(), inputs, bind_eq_ok.mpr ⟨(), outputs, ?_⟩⟩
    exact unless_eq_ok.mpr ⟨by simp [closed], valid⟩

theorem check_simplified (checked : r.check = .ok ()) (simplifies : r.graph.Simplifies g) :
    ({ r with graph := g } : Routine).check = .ok () := by
  obtain ⟨inputs, outputs, closed, valid⟩ := check_eq_ok.mp checked
  have arrays : g.arrays = r.graph.arrays := by
    rw [simplifies.declared]
    rfl
  have name : g.name = r.graph.name := by
    rw [simplifies.declared]
    rfl
  refine check_eq_ok.mpr ⟨?_, ?_, ?_, simplifies.valid valid⟩
  · rw [checkRole_congr arrays name]
    exact inputs
  · rw [checkRole_congr arrays name]
    exact outputs
  · have none := List.isEmpty_iff.mp closed
    exact List.isEmpty_iff.mpr (simplifies.freeSymbols.trans none)

end Routine

theorem Executable.both_ofRoutine_related {related : Program → Program → Prop}
    (closed : r.graph.freeSymbols.isEmpty = true)
    (closed' : g.freeSymbols.isEmpty = true) (keys : g.arrays.keys = r.graph.arrays.keys)
    (runs : Outcome.Both related (Program.compile r.graph) (Program.compile g)) :
    Outcome.Both (fun x x' : Executable => ∃ p p', x = ⟨p, r.graph, r.inputs, r.outputs⟩ ∧
      x' = ⟨p', g, r.inputs, r.outputs⟩ ∧ related p p')
      (Executable.ofRoutine r .cpu) (Executable.ofRoutine { r with graph := g } .cpu) := by
  have compiled : Outcome.Both (fun x x' : Executable => ∃ p p',
    x = ⟨p, r.graph, r.inputs, r.outputs⟩ ∧ x' = ⟨p', g, r.inputs, r.outputs⟩ ∧ related p p')
      (do return ⟨← Backend.cpu.compile r.graph, r.graph, r.inputs, r.outputs⟩)
      (do return ⟨← Backend.cpu.compile g, g, r.inputs, r.outputs⟩) :=
    runs.bind fun p p' same => .gives ⟨p, p', rfl, rfl, same⟩
  unfold Executable.ofRoutine
  simp only [keys, closed, closed']
  by_cases unused : (r.inputs.isEmpty && r.outputs.isEmpty) = true
  · simp only [unused, if_true]
    exact .fails _ _
  · simp only [unused]
    cases r.graph.arrays.keys.find? fun name => "__return".isPrefixOf name with
    | some name => exact .fails _ _
    | none => exact compiled

theorem Executable.both_ofRoutine_alike {related : Program → Program → Prop}
    (closed : r.graph.freeSymbols.isEmpty = true) (closed' : g.freeSymbols.isEmpty = true)
    (declared : g = r.graph.rewired g.states g.edges g.start)
    (runs : Outcome.Both related (Program.compile r.graph) (Program.compile g)) :
    Outcome.Both (fun x x' : Executable => x.Alike x' ∧
      x = ⟨x.program, r.graph, r.inputs, r.outputs⟩ ∧ related x.program x'.program)
      (Executable.ofRoutine r .cpu) (Executable.ofRoutine { r with graph := g } .cpu) := by
  have arrays : g.arrays = r.graph.arrays := by
    rw [declared]
    rfl
  refine (both_ofRoutine_related closed closed' (congrArg Dict.keys arrays) runs).imp ?_
  rintro _ _ ⟨p, p', rfl, rfl, same⟩
  exact ⟨⟨by simp only; rw [declared]; rfl, arrays, by simp only; rw [declared]; rfl, rfl, rfl⟩,
    rfl, same⟩

theorem Routine.optimized_off {options : Options} (checked : r.check = .ok ())
    (off : options.simplifies = false) : r.optimized .cpu options = .ok r := by
  simp [Routine.optimized, off, Backend.cpu, checked]

-- An executable that runs the graph of a routine as it stands, and one that runs it simplified or
-- not.
structure Executable.Optimizes (r : Routine) (x x' : Executable) : Prop extends x.Alike x' where
  plain : x = ⟨x.program, r.graph, r.inputs, r.outputs⟩
  runs : ∀ memory, x'.program.call memory = x.program.call memory

namespace Routine

variable {options : Options} (checked : r.check = .ok ())
  (ordered : r.graph.Everywhere fun g => g.Orderly ∧ g.Acyclic)

include checked ordered

theorem both_simplified (on : options.simplifies = true) :
    Outcome.Both (Executable.Optimizes r) (Executable.ofRoutine r .cpu)
      (r.optimized .cpu options >>= fun r => Executable.ofRoutine r .cpu) := by
  obtain ⟨-, -, closed, valid⟩ := check_eq_ok.mp checked
  have acyclic : r.graph.Everywhere Graph.Acyclic := ordered.imp fun _ both => both.2
  obtain ⟨g, simplify, simplifies⟩ :=
    Graph.simplify_simplifies r.graph (Graph.everywhere_inRange _ valid)
      (ordered.imp fun _ both => both.1)
  have checked' := check_simplified checked simplifies
  obtain ⟨-, -, closed', -⟩ := check_eq_ok.mp checked'
  have optimized : r.optimized .cpu options = .ok { r with graph := g } := by
    simp [Routine.optimized, on, simplify, Backend.cpu, checked']
  have runs : Outcome.Both (fun p p' : Program => ∀ memory, p'.call memory = p.call memory)
    (Program.compile r.graph) (Program.compile g) := by
    refine simplifies.runs.imp ?_
    intro p p' agree args
    rcases agree args {} with same | ⟨cyclic, -⟩
    · exact same
    · exact absurd acyclic cyclic
  rw [optimized, ok_bind]
  exact (Executable.both_ofRoutine_alike closed closed' simplifies.declared runs).imp
    fun _ _ ⟨alike, plain, runs⟩ => ⟨alike, plain, runs⟩

theorem both_optimized (options : Options) :
    Outcome.Both (Executable.Optimizes r) (Executable.ofRoutine r .cpu)
      (r.optimized .cpu options >>= fun r => Executable.ofRoutine r .cpu) := by
  cases on : options.simplifies with
  | true => exact both_simplified checked ordered on
  | false =>
    obtain ⟨-, -, closed, -⟩ := check_eq_ok.mp checked
    rw [optimized_off checked on, ok_bind]
    refine (Executable.both_ofRoutine_alike closed closed r.graph.eta.symm (.refl _)).imp ?_
    rintro x x' ⟨alike, plain, same⟩
    exact ⟨alike, plain, fun memory => by rw [same]⟩

end Routine

section

variable {d : Draft} {specs : List ArgSpec} {fuel : Nat} {f : Lambda}

theorem Routine.checked_of_toRoutine (made : d.toRoutine specs true = .ok r) :
    r.check = .ok () := by
  obtain ⟨_, _, -, -, checked⟩ := toRoutine_iff.mp made
  exact checked rfl

variable (lowers : Lowers fuel f d) (made : d.toRoutine specs true = .ok r)

include lowers made

theorem Lowers.both_optimized (options : Options) :
    Outcome.Both (Executable.Optimizes r) (Executable.ofRoutine r .cpu)
      (r.optimized .cpu options >>= fun r => Executable.ofRoutine r .cpu) :=
  r.both_optimized (Routine.checked_of_toRoutine made) (toRoutine_everywhere lowers made) options

-- The options change no result.
theorem Lowers.both_call (options : Options) (args : List Argument) : Outcome.Both Eq
      (do let r ← r.optimized .cpu options; let x ← Executable.ofRoutine r .cpu; x.call args)
      (do let x ← Executable.ofRoutine r .cpu; x.call args) := by
  rw [← bind_assoc]
  refine (lowers.both_optimized made options).symm.bind fun x' x optimizes => ?_
  rw [optimizes.call optimizes.runs]
  exact .refl _

end

namespace Session

variable {α : Type} {s s' : Session}

theorem gives_tracing {step : TraceM α} {a : α} (given : Gives (tracing step) s a s') :
    s' = { s with counter := s'.counter } := by
  rw [Gives, tracing] at given
  rcases ran : step s.counter with ⟨outcome, counter⟩
  rw [ran] at given
  cases given
  rfl

theorem gives_building {step : LowerM α} {a : α} (given : Gives (building step) s a s') :
    ∃ b', Gives step (.new s.unnamed) a b' ∧ s' = { s with unnamed := b'.unnamed } := by
  rw [Gives, building] at given
  rcases ran : step (.new s.unnamed) with ⟨outcome, b'⟩
  rw [ran] at given
  cases given
  exact ⟨b', ran, rfl⟩

theorem gives_backend {name : String} {found : Backend} (given : Gives (backend name) s found s') :
    s.backends.get? name = some found := by
  have known := gives_get_bind.mp given
  split at known
  next listed =>
    obtain ⟨rfl, rfl⟩ := gives_pure.mp known
    exact listed
  · exact absurd known gives_refuse

theorem gives_lowerAnew {w : Wrapped} {specs : List ArgSpec} {l : Lowered} {backend : Backend}
    (known : s.backends.get? w.backend = some backend) (given : Gives (lowerAnew w specs) s l s') :
    ∃ f b draft b', Gives (Lowering.lower w.book f (w.name?.map Naming.sanitized)) b draft b' ∧
      draft.toRoutine specs true = .ok l.routine ∧ l.backend = backend := by
  unfold lowerAnew at given
  obtain ⟨_, s₁, changed, rest₁⟩ := gives_bind.mp given
  obtain rfl := gives_modify.mp changed
  obtain ⟨f, s₂, traced, rest₂⟩ := gives_bind.mp rest₁
  obtain ⟨draft, s₃, built, rest₃⟩ := gives_bind.mp rest₂
  obtain ⟨b', lowered, same⟩ := gives_building built
  obtain ⟨routine, made, rest₄⟩ := gives_outcome_bind.mp rest₃
  obtain ⟨found, s₅, looked, rest₅⟩ := gives_bind.mp rest₄
  obtain ⟨id, s₆, numbered, rest₆⟩ := gives_bind.mp rest₅
  obtain ⟨rfl, rfl⟩ := gives_pure.mp rest₆
  refine ⟨f, _, draft, b', lowered, made, ?_⟩
  have present := gives_backend looked
  rw [same, gives_tracing traced] at present
  exact Option.some.inj (present.symm.trans known)

theorem compileAnew_eq (l : Lowered) (options : Options) (t : Session) :
    (compileAnew l options t).1 = (do
      let routine ← l.routine.optimized l.backend options
      let executable ← Executable.ofRoutine routine l.backend
      return { id := t.programs, executable, options }) := by
  unfold compileAnew
  rw [bind_run, lift]
  cases l.routine.optimized l.backend options with
  | error failure => rfl
  | ok routine =>
    simp only [ok_bind]
    rw [bind_run, lift]
    cases Executable.ofRoutine routine l.backend <;> rfl

theorem compileAnew_simplify {w : Wrapped} {specs : List ArgSpec} {s s' : Session} {l : Lowered}
    (rules : w.book = .builtin)
    (cpu : s.backends.get? w.backend = some .cpu) (lowered : Gives (lowerAnew w specs) s l s')
    {simplified plain : Options}
    (on : simplified.simplifies = true) (off : plain.simplifies = false) (t t' : Session) :
    Outcome.Both (fun c c' : Compiled => ∀ args, c'.executable.call args = c.executable.call args)
      (compileAnew l plain t).1 (compileAnew l simplified t').1 := by
  obtain ⟨f, b, draft, b', given, made, backend⟩ := gives_lowerAnew cpu lowered
  rw [rules] at given
  have checked := Routine.checked_of_toRoutine made
  rw [compileAnew_eq, compileAnew_eq, backend, Routine.optimized_off checked off, ok_bind,
    ← bind_assoc]
  refine (Routine.both_simplified checked (toRoutine_everywhere (lowers_of_gives given) made)
    on).bind ?_
  intro x x' optimizes
  exact .gives fun args => optimizes.call optimizes.runs args

def choosing : Traceable := fun _ => do
  let selector ← Var.trace [] .int64
  let x ← Var.trace [2] .int64
  let y ← Var.trace [2] .int64
  let z ← Var.trace [2] .int64
  let neg (v w : Var) : Equation := ⟨"neg", [.var v], [w], {}, false⟩
  let same : Lambda := ⟨[x], [], [], [], [], [.var x]⟩
  let negative : Lambda := ⟨[x], [], [], [], [neg x z], [.var z]⟩
  let choice : Equation := ⟨"cond", [.var selector, .var x], [y],
    Dict.ofList [("branches", .lambdas [same, negative])], false⟩
  return ⟨[selector, x], [], [], [], [choice, neg y z], [.var z]⟩

theorem compileAnew_simplify_choosing :
    let w : Wrapped := ⟨0, choosing, none, .builtin, "cpu"⟩
    let s := Session.new 4 [.cpu]
    ∃ l s', Gives (lowerAnew w [⟨[], .int64, none, .cpuHeap⟩, ⟨[2], .int64, none, .cpuHeap⟩]) s l
      s' ∧
      Outcome.Both (fun c c' : Compiled => ∀ args, c'.executable.call args = c.executable.call args)
        (compileAnew l (.all false) s').1 (compileAnew l (.all true) s').1 := by
  intro w s
  let specs : List ArgSpec := [⟨[], .int64, none, .cpuHeap⟩, ⟨[2], .int64, none, .cpuHeap⟩]
  have runs : Outcome.Succeeds (lowerAnew w specs s).1 := by decide +kernel
  rcases ran : lowerAnew w specs s with ⟨failure | l, s'⟩
  · rw [ran] at runs
    exact absurd runs (Outcome.not_succeeds_error failure)
  · exact ⟨l, s', ran, compileAnew_simplify rfl rfl ran rfl rfl s' s'⟩

end Session

theorem Lambda.both_evaluate
    (f : Lambda) (specs : List ArgSpec) (options : Options) (args : List Argument) :
    Outcome.Both Eq (f.evaluate specs options args) (do
      let draft ← (Lowering.lower .builtin f none (.new 0)).1
      let routine ← draft.toRoutine specs true
      let executable ← Executable.ofRoutine routine .cpu
      executable.call args) := by
  unfold evaluate
  refine (Outcome.Both.refl (Lowering.lower .builtin f none (.new 0)).1).known.bind ?_
  rintro draft _ ⟨rfl, lowered, -⟩
  refine (Outcome.Both.refl (draft.toRoutine specs true)).known.bind ?_
  rintro routine _ ⟨rfl, made, -⟩
  exact (lowers_of_gives (gives_of_ends lowered)).both_call made options args

end TraceFlow
