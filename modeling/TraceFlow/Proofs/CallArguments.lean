import TraceFlow.Executable
import TraceFlow.Proofs.DenseLayout

set_option autoImplicit false

namespace TraceFlow.Executable

open List

variable {name : String} {a : Argument} {t : Tensor} {d : Descriptor} {x x' : Executable}
  {memory after given : Memory} {args : List Argument}

theorem asTensor_name (other : String) (made : asTensor name a = .ok t) :
    asTensor other a = .ok t := by
  cases a with
  | tensor value => exact made
  | scalar s => exact made
  | tuple parts => cases made

theorem fits_of_checkArgument (passes : checkArgument name t d = .ok ()) :
    t.elem = d.elem ∧ t.shape = d.shape := by
  unfold checkArgument at passes
  dsimp only at passes
  split at passes
  next elem =>
    obtain ⟨n, -, passes⟩ := bind_eq_ok.mp passes
    obtain ⟨n', -, passes⟩ := bind_eq_ok.mp passes
    obtain ⟨fits, -, passes⟩ := bind_eq_ok.mp passes
    obtain ⟨-, passes⟩ := unlessShown_eq_ok.mp passes
    split at passes
    next shape => exact ⟨elem, shape⟩
    · obtain ⟨_, ⟨⟩, passes⟩ := bind_eq_ok.mp passes
      exact absurd rfl (unless_eq_ok.mp passes).1
  next other =>
    obtain ⟨_, ⟨⟩, passes⟩ := bind_eq_ok.mp passes
    exact absurd rfl (unlessShown_eq_ok.mp passes).1

theorem descriptor_eq_ok : x.descriptor name = .ok d ↔ x.graph.array? name = some d := by
  unfold descriptor
  cases x.graph.array? name <;> simp [refuse]

theorem get?_bindInputs {pairs : List (String × Argument)}
    (ran : x.bindInputs memory pairs = .ok after) :
    (∀ name, name ∉ pairs.map Prod.fst → after.get? name = memory.get? name) ∧
      ∀ name ∈ pairs.map Prod.fst, ∃ a d t, (name, a) ∈ pairs ∧ x.graph.array? name = some d ∧
      asTensor "" a = .ok t ∧ checkArgument name t d = .ok () ∧ after.get? name = some t := by
  induction pairs generalizing memory with
  | nil =>
    cases ran
    exact ⟨fun _ _ => rfl, nofun⟩
  | cons pair rest ih =>
    obtain ⟨first, argument⟩ := pair
    obtain ⟨d, known, ran⟩ := bind_eq_ok.mp ran
    obtain ⟨t, made, ran⟩ := bind_eq_ok.mp ran
    obtain ⟨_, checked, later⟩ := bind_eq_ok.mp ran
    obtain ⟨others, each⟩ := ih later
    refine ⟨fun name away => ?_, fun name member => ?_⟩
    · rw [map_cons, mem_cons, not_or] at away
      rw [others name away.2, Dict.get?_insert, if_neg away.1]
    -- The last argument of a name counts.
    by_cases again : name ∈ rest.map Prod.fst
    · obtain ⟨a, d, t, listed, bound⟩ := each name again
      exact ⟨a, d, t, mem_cons_of_mem _ listed, bound⟩
    · obtain rfl := (mem_cons.mp member).resolve_right again
      refine ⟨argument, d, t, mem_cons_self, descriptor_eq_ok.mp known, asTensor_name "" made,
        checked, ?_⟩
      rw [others _ again, Dict.get?_insert, if_pos rfl]

theorem get?_allocateOutputs {names : List String}
    (ran : x.allocateOutputs memory names = .ok after) :
    (∀ name, name ∉ names ∨ memory.contains name = true → after.get? name = memory.get? name) ∧
      ∀ name ∈ names, memory.contains name = false → ∃ d t, x.graph.array? name = some d ∧
      Tensor.ofDescriptor d = .ok t ∧ after.get? name = some t := by
  induction names generalizing memory with
  | nil =>
    cases ran
    exact ⟨fun _ _ => rfl, nofun⟩
  | cons first rest ih =>
    rw [allocateOutputs] at ran
    split at ran
    next present =>
      obtain ⟨others, each⟩ := ih ran
      refine ⟨fun name either => others name (either.imp_left fun away listed => away
        (mem_cons_of_mem _ listed)), fun name member free => ?_⟩
      rcases mem_cons.mp member with rfl | there
      · exact absurd present (by simp [free])
      · exact each name there free
    next absent =>
      obtain ⟨d, known, ran⟩ := bind_eq_ok.mp ran
      obtain ⟨t, made, later⟩ := bind_eq_ok.mp ran
      obtain ⟨others, each⟩ := ih later
      have here : (memory.insert first t).get? first = some t := by
        rw [Dict.get?_insert, if_pos rfl]
      have there {name : String} (away : name ≠ first) :
        (memory.insert first t).get? name = memory.get? name := by
        rw [Dict.get?_insert, if_neg away]
      refine ⟨fun name either => ?_, fun name member free => ?_⟩
      · have away : name ≠ first := by
          rintro rfl
          exact either.elim (fun away => away mem_cons_self) absent
        refine (others name (either.imp (fun away listed => away (mem_cons_of_mem _ listed))
          fun present => ?_)).trans (there away)
        rwa [Dict.contains, there away]
      · by_cases same : name = first
        · subst same
          exact ⟨d, t, descriptor_eq_ok.mp known, made,
            (others name (.inr (by rw [Dict.contains, here]; rfl))).trans here⟩
        · exact each name ((mem_cons.mp member).resolve_left same)
            (by rwa [Dict.contains, there same])

def accept (x : Executable) (args : List Argument) : Outcome Memory := do
  if args.length ≠ x.inputs.length then
    refuse (.argument s!"'{x.graph.name}' takes {x.inputs.length} arguments, got {args.length}")
  let memory ← x.bindInputs {} (x.inputs.zip args)
  let memory ← x.allocateOutputs memory x.outputs
  if memory.size ≠ x.graph.args.length then
    refuse (.invariant (s!"built {memory.size} call arguments for '{x.graph.name}', " ++
      s!"expected {Text.quotedList x.graph.args}"))
  return memory

theorem call_eq (x : Executable) (args : List Argument) : x.call args = (do
    let given ← x.accept args
    let memory ← x.program.call given
    x.outputs.mapM (readOutput memory)) := by
  unfold call accept
  by_cases counted : args.length ≠ x.inputs.length
  · rw [if_pos counted, if_pos counted]
    rfl
  · rw [if_neg counted, if_neg counted]
    simp only [bind_assoc]
    congr 1
    funext bound
    congr 1
    funext given
    by_cases built : given.size ≠ x.graph.args.length
    · rw [if_pos built, if_pos built]
      rfl
    · rw [if_neg built, if_neg built]
      rfl

-- What a call sets up: the arguments as they are passed on, and blank outputs.
structure Accepted (x : Executable) (args : List Argument) (given : Memory) : Prop where
  counted : args.length = x.inputs.length
  inputs : ∀ name ∈ x.inputs, ∃ a d t, (name, a) ∈ x.inputs.zip args ∧
    x.graph.array? name = some d ∧ asTensor "" a = .ok t ∧
    checkArgument name t d = .ok () ∧ given.get? name = some t
  outputs : ∀ name ∈ x.outputs, name ∉ x.inputs → ∃ d t, x.graph.array? name = some d ∧
    Tensor.ofDescriptor d = .ok t ∧ given.get? name = some t
  others : ∀ name, name ∉ x.inputs → name ∉ x.outputs → given.get? name = none

theorem Accepted.of_accept (accepted : x.accept args = .ok given) : x.Accepted args given := by
  unfold accept at accepted
  obtain ⟨counted, accepted⟩ := unless_eq_ok.mp accepted
  obtain ⟨bound, binds, accepted⟩ := bind_eq_ok.mp accepted
  obtain ⟨_, allocates, accepted⟩ := bind_eq_ok.mp accepted
  obtain ⟨-, accepted⟩ := unless_eq_ok.mp accepted
  cases accepted
  have counted := not_not.mp counted
  obtain ⟨absent, received⟩ := get?_bindInputs binds
  obtain ⟨kept, blank⟩ := get?_allocateOutputs allocates
  rw [map_fst_zip (Nat.le_of_eq counted.symm)] at absent received
  refine ⟨counted, fun name input => ?_, fun name output other => blank name output ?_,
    fun name other away => ?_⟩
  · obtain ⟨a, d, t, listed, known, made, passes, found⟩ := received name input
    exact ⟨a, d, t, listed, known, made, passes,
      (kept name (.inr (by rw [Dict.contains, found]; rfl))).trans found⟩
  · rw [Dict.contains, absent name other]
    rfl
  · exact (kept name (.inl away)).trans (absent name other)

theorem Accepted.present (accepted : x.Accepted args given)
    (member : name ∈ x.inputs ++ x.outputs) : ∃ t, given.get? name = some t := by
  by_cases input : name ∈ x.inputs
  · obtain ⟨_, _, t, -, -, -, -, found⟩ := accepted.inputs name input
    exact ⟨t, found⟩
  · obtain ⟨_, t, -, -, found⟩ := accepted.outputs name ((mem_append.mp member).resolve_left input)
      input
    exact ⟨t, found⟩

theorem Accepted.typed (accepted : x.Accepted args given) (found : given.get? name = some t) :
    ∃ d, x.graph.array? name = some d ∧ t.elem = d.elem ∧ t.shape = d.shape := by
  by_cases input : name ∈ x.inputs
  · obtain ⟨_, d, u, -, known, -, passes, found'⟩ := accepted.inputs name input
    cases found.symm.trans found'
    exact ⟨d, known, fits_of_checkArgument passes⟩
  by_cases output : name ∈ x.outputs
  · obtain ⟨d, u, known, made, found'⟩ := accepted.outputs name output input
    cases found.symm.trans found'
    obtain ⟨_, -, -, rfl⟩ := Tensor.ofDescriptor_eq_ok.mp made
    exact ⟨d, known, rfl, rfl⟩
  · cases found.symm.trans (accepted.others name input output)

theorem ofRoutine_eq_ok {r : Routine} : ofRoutine r .cpu = .ok x ↔
    (r.inputs.isEmpty && r.outputs.isEmpty) = false ∧
    (∀ name ∈ r.graph.arrays.keys, "__return".isPrefixOf name = false) ∧ r.graph.freeSymbols = [] ∧
    ∃ program, Program.compile r.graph = .ok program ∧
    x = ⟨program, r.graph, r.inputs, r.outputs⟩ := by
  have keys : (r.graph.arrays.keys.find? fun name => "__return".isPrefixOf name) = none ↔
      ∀ name ∈ r.graph.arrays.keys, "__return".isPrefixOf name = false := by
    simp only [find?_eq_none, Bool.not_eq_true]
  rw [← keys]
  unfold ofRoutine
  rw [unless_eq_ok, Bool.not_eq_true]
  refine and_congr_right fun _ => ?_
  cases r.graph.arrays.keys.find? fun name => "__return".isPrefixOf name with
  | some name =>
    refine ⟨fun made => ?_, fun both => nomatch both.1⟩
    obtain ⟨_, impossible, -⟩ := bind_eq_ok.mp made
    cases impossible
  | none =>
    refine unless_eq_ok.trans ?_
    simp only [bind_eq_ok, Outcome.pure_eq, Except.ok.injEq, eq_comm (a := x), true_and,
      Bool.not_eq_true, Bool.not_eq_false',
      List.isEmpty_iff]
    rfl

theorem compile_of_ofRoutine {r : Routine} (made : ofRoutine r .cpu = .ok x) :
    Program.compile r.graph = .ok x.program := by
  obtain ⟨-, -, -, program, compiled, rfl⟩ := ofRoutine_eq_ok.mp made
  exact compiled

-- Executables that differ in their programs and state machines only.
structure Alike (x x' : Executable) : Prop where
  name : x'.graph.name = x.graph.name
  arrays : x'.graph.arrays = x.graph.arrays
  args : x'.graph.args = x.graph.args
  inputs : x'.inputs = x.inputs
  outputs : x'.outputs = x.outputs

section

variable (arrays : x'.graph.arrays = x.graph.arrays)

include arrays

theorem descriptor_congr (name : String) : x'.descriptor name = x.descriptor name := by
  rw [Executable.descriptor, Executable.descriptor, Graph.array?, Graph.array?, arrays]

theorem bindInputs_congr (memory : Memory) (pairs : List (String × Argument)) :
    x'.bindInputs memory pairs = x.bindInputs memory pairs := by
  induction pairs generalizing memory with
  | nil => rfl
  | cons pair rest ih => simp only [Executable.bindInputs, descriptor_congr arrays, ih]

theorem allocateOutputs_congr (memory : Memory) (names : List String) :
    x'.allocateOutputs memory names = x.allocateOutputs memory names := by
  induction names generalizing memory with
  | nil => rfl
  | cons name rest ih => simp only [Executable.allocateOutputs, descriptor_congr arrays, ih]

end

theorem Alike.accept (alike : Alike x x') (args : List Argument) :
    x'.accept args = x.accept args := by
  simp only [Executable.accept, bindInputs_congr alike.arrays, allocateOutputs_congr alike.arrays,
    alike.inputs, alike.outputs, alike.args, alike.name]

theorem Alike.call (alike : Alike x x')
    (runs : ∀ memory, x'.program.call memory = x.program.call memory) (args : List Argument) :
    x'.call args = x.call args := by
  simp only [call_eq, alike.accept, alike.outputs, runs]

theorem Alike.both_call (alike : Alike x x') (runs : ∀ given, x.accept args = .ok given →
      Outcome.Both Eq (x.program.call given) (x'.program.call given)) :
    Outcome.Both Eq (x.call args) (x'.call args) := by
  rw [call_eq, call_eq, alike.accept, alike.outputs]
  cases accepted : x.accept args with
  | error failure => exact .fails _ _
  | ok given =>
    refine (runs given accepted).bind ?_
    rintro memory _ rfl
    exact .refl _

end TraceFlow.Executable
