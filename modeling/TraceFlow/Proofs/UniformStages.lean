import TraceFlow.Proofs.CallArguments
import TraceFlow.Proofs.UniformLowering
import TraceFlow.Session

set_option autoImplicit false

namespace TraceFlow

open Outcome List

variable {d d' : Draft}

namespace Graph.Akin

variable {g g' : Graph}

theorem addState (akin : g.Akin g') (label label' : String) : (g.addState label).Akin
    (g'.addState label') := by
  refine ⟨?_, ?_⟩
  · rw [akin.1]
    rfl
  · simp only [Graph.addState, map_append, akin.2, map_cons, map_nil]

theorem addEdge (akin : g.Akin g') (e : Edge) : (g.addEdge e).Akin (g'.addEdge e) := by
  refine ⟨?_, akin.2⟩
  rw [akin.1]
  rfl

theorem addArray (akin : g.Akin g') (name : String) (d : Descriptor) : Likewise Graph.Akin
    (g.addArray name d) (g'.addArray name d) := by
  simp only [Graph.addArray, akin.arrays]
  refine .ite (fun _ => .fails rfl) fun _ => .gives ⟨?_, akin.2⟩
  rw [akin.1]
  rfl

theorem addNode (akin : g.Akin g') (id : Nat) (node : Node) : Likewise Graph.Akin
    (g.addNode id node) (g'.addNode id node) := by
  have added (states : List State) :
    (states.modify id (·.add node)).map State.nodes = (states.map State.nodes).modify id (· ++
      [node]) := by
    apply ext_getElem?
    intro i
    simp only [getElem?_map, getElem?_modify]
    cases states[i]? <;> by_cases here : id = i <;> simp [here, State.add]
  simp only [Graph.addNode, hasState, akin.length_states]
  refine .ite (fun _ => .gives ⟨?_, ?_⟩) fun _ => .fails rfl
  · rw [akin.1]
    rfl
  · rw [added, added, akin.2]

theorem expose (akin : g.Akin g') (names : List String) : Likewise Graph.Akin (g.expose names)
    (g'.expose names) := by
  induction names generalizing g g' with
  | nil => exact .gives akin
  | cons name rest ih =>
    simp only [Graph.expose, akin.arrays]
    refine .ite (fun _ => ih ⟨?_, akin.2⟩) fun _ => .fails rfl
    rw [akin.1]
    rfl

end Graph.Akin

namespace Boundary

theorem twin_changeGraph {change change' : Graph → Outcome Graph}
    (alike : ∀ g g', g.Akin g' → Likewise Graph.Akin (change g) (change' g')) :
    Twin Draft.Akin Eq (changeGraph change) (changeGraph change') := by
  refine .bind .get fun d d' akin => .bind (.lift (alike _ _ akin.graph)) fun g g' changed =>
    .set ?_
  exact ⟨changed, akin.inputs, akin.outputs, akin.start, akin.terminal⟩

theorem twin_addState (label label' : String) : Twin Draft.Akin Eq (addState label)
    (addState label') := by
  refine .bind .get fun d d' akin => ?_
  have next : d'.graph.nextState = d.graph.nextState := akin.graph.length_states
  rw [next]
  exact .seq (twin_changeGraph fun _ _ akin => .gives (akin.addState label label')) fun _ =>
    .pure rfl

theorem twin_addEdge (source target : Nat) : Twin Draft.Akin Eq (addEdge source target)
    (addEdge source target) :=
  twin_changeGraph fun _ _ akin => .gives (akin.addEdge _)

theorem twin_inner (role name : String) : Twin Draft.Akin Eq (inner role name)
    (inner role name) := by
  refine .bind .get fun d d' akin => ?_
  have same : d'.graph.array? name = d.graph.array? name := by
    rw [Graph.array?, Graph.array?, akin.graph.arrays]
  rw [same]
  cases d.graph.array? name with
  | none => exact .refuse rfl
  | some found => exact .pure rfl

theorem twin_addCopy (state : Nat) (source target : Access) : Twin Draft.Akin Eq
    (addCopy state source target) (addCopy state source target) :=
  twin_changeGraph fun _ _ akin => akin.addNode _ _

theorem twin_addInputs (state i : Nat) (pairs : List (String × ArgSpec)) : Twin Draft.Akin Eq
    (addInputs state i pairs) (addInputs state i pairs) := by
  induction pairs generalizing i with
  | nil => exact .pure rfl
  | cons pair rest ih =>
    refine .seq (twin_inner _ _) fun d => .seq (.lift_self _) fun outer => .seq
      (twin_changeGraph fun _ _ akin => akin.addArray _ outer) fun _ => ?_
    exact .seq (twin_addCopy _ _ _) fun _ => .seq (ih _) fun _ => .pure rfl

theorem twin_addOutputs (state i : Nat) (names : List String) : Twin Draft.Akin Eq
    (addOutputs state i names) (addOutputs state i names) := by
  induction names generalizing i with
  | nil => exact .pure rfl
  | cons name rest ih =>
    refine .seq (twin_inner _ _) fun d => .seq (.lift_self _) fun outer => .seq
      (twin_changeGraph fun _ _ akin => akin.addArray _ outer) fun _ => ?_
    exact .seq (twin_addCopy _ _ _) fun _ => .seq (ih _) fun _ => .pure rfl

theorem twin_addInputStage (args : List ArgSpec) : Twin Draft.Akin Eq (addInputStage args)
    (addInputStage args) := by
  refine .bind .get fun d d' akin => .seq (twin_addState _ _) fun state => ?_
  rw [Draft.inputs, Draft.inputs, akin.inputs, akin.start]
  refine .seq (twin_addInputs _ _ _) fun names => .seq (twin_addEdge _ _) fun _ => .modifies
    fun e e' akin => ?_
  refine ⟨⟨?_, akin.graph.2⟩, rfl, akin.outputs, rfl, akin.terminal⟩
  show _ = Graph.relabelled _ e'.graph.name e'.graph.states
  rw [akin.graph.1]
  rfl

theorem twin_addOutputStage : Twin Draft.Akin Eq addOutputStage addOutputStage := by
  refine .bind .get fun d d' akin => .seq (twin_addState _ _) fun state => ?_
  rw [Draft.outputs, Draft.outputs, akin.outputs, akin.terminal]
  refine .seq (twin_addOutputs _ _ _) fun names => .seq (twin_addEdge _ _) fun _ => .modifies
    fun e e' akin => ?_
  exact ⟨akin.graph, akin.inputs, rfl, akin.start, rfl⟩

end Boundary

theorem Draft.Akin.signature (akin : d.Akin d') : d'.signature = d.signature := by
  rw [Draft.signature, Draft.signature, akin.inputs, akin.outputs]

theorem Boundary.twin_addStages (args : List ArgSpec) : Twin Draft.Akin Eq (addStages args)
    (addStages args) := by
  refine .bind .get fun d d' akin => ?_
  rw [akin.signature]
  refine .seq (.lift_self _) fun signature => ?_
  have staged : Twin Draft.Akin Eq (do addInputStage args; addOutputStage)
    (do addInputStage args; addOutputStage) :=
    .seq (twin_addInputStage args) fun _ => twin_addOutputStage
  obtain ⟨inputs, outputs⟩ := signature
  dsimp only
  cases outputs.find? fun name => name ∈ inputs with
  | some name => exact .bind (.refuse rfl) fun _ _ (impossible : False) => impossible.elim
  | none => exact .guarded rfl staged

structure Routine.Akin (r r' : Routine) : Prop where
  graph : r.graph.Akin r'.graph
  inputs : r'.inputs = r.inputs
  outputs : r'.outputs = r.outputs

theorem Routine.Akin.check {r r' : Routine} (akin : r.Akin r') : Likewise Eq r.check r'.check := by
  have transient : r'.isTransient = r.isTransient := by
    funext name
    simp only [isTransient, Graph.array?, akin.graph.arrays]
  have role (role : String) (names : List String) :
    Likewise Eq (r.checkRole role names) (r'.checkRole role names) := by
    simp only [checkRole, transient]
    exact .ite (fun _ => .gives rfl) fun _ => .fails rfl
  simp only [Routine.check, akin.inputs, akin.outputs, akin.graph.freeSymbols]
  exact .seq (role _ _) fun _ => .seq (role _ _) fun _ => .ite (fun _ => .fails rfl) fun _ =>
    akin.graph.check

theorem Draft.Akin.finish (akin : d.Akin d') (validate : Bool) : Likewise Routine.Akin
    (d.finish validate) (d'.finish validate) := by
  unfold Draft.finish
  rw [akin.signature]
  refine .seq akin.check fun _ => .seq (.of_eq rfl) fun signature => .ite (fun _ => .fails rfl)
    fun _ => ?_
  refine (akin.graph.expose _).bind fun g g' exposed => ?_
  have named : (⟨{ g with args := distinct (signature.1 ++ signature.2) }, signature.1,
    signature.2⟩ : Routine).Akin
      ⟨{ g' with args := distinct (signature.1 ++ signature.2) }, signature.1, signature.2⟩ := by
    refine ⟨⟨?_, exposed.2⟩, rfl, rfl⟩
    show _ = Graph.relabelled _ g'.name g'.states
    rw [exposed.1]
    rfl
  cases validate with
  | false => exact .gives named
  | true => exact .seq named.check fun _ => .gives named

theorem Draft.Akin.toRoutine (akin : d.Akin d') (specs : List ArgSpec) (validate : Bool) :
    Likewise Routine.Akin (d.toRoutine specs validate) (d'.toRoutine specs validate) := by
  obtain ⟨likewise, staged⟩ := Boundary.twin_addStages specs d d' akin
  exact .seq akin.check fun _ => .seq likewise fun _ => staged.finish validate

structure Backend.Uniform (backend : Backend) : Prop where
  optimize (options : Options) {g g' : Graph} (akin : g.Akin g') :
    Likewise Graph.Akin (backend.optimize options g) (backend.optimize options g')
  compile {g g' : Graph} (akin : g.Akin g') :
    Likewise Program.Alike (backend.compile g) (backend.compile g')

theorem Backend.uniform_cpu : Backend.cpu.Uniform :=
  ⟨fun _ _ _ akin => .gives akin, fun akin => akin.compile⟩

def Executable.SameCalls (x x' : Executable) : Prop :=
  ∀ args, Likewise Eq (x.call args) (x'.call args)

theorem Executable.likewise_call {α : Type} (view : α → Executable) {o : Outcome α}
    {o' : Outcome Executable}
    (likewise : Likewise (fun a x => (view a).SameCalls x) o o') (args : List Argument) :
    Likewise Eq (o >>= fun a => (view a).call args) (o' >>= fun x => x.call args) :=
  likewise.bind fun _ _ same => same args

namespace Routine.Akin

variable {r r' : Routine} {backend : Backend}

theorem optimized (akin : r.Akin r') (uniform : backend.Uniform) (options : Options) :
    Likewise Routine.Akin (r.optimized backend options) (r'.optimized backend options) := by
  have optimizes {g g' : Graph} (simplified : g.Akin g') : Likewise Routine.Akin (do
        let graph ← backend.optimize options g
        ({ r with graph } : Routine).check
        return { r with graph }) (do
        let graph ← backend.optimize options g'
        ({ r' with graph } : Routine).check
        return { r' with graph }) := by
    refine (uniform.optimize options simplified).bind fun h h' optimized => ?_
    have changed : ({ r with graph := h } : Routine).Akin { r' with graph := h' } :=
      ⟨optimized, akin.inputs, akin.outputs⟩
    exact .seq changed.check fun _ => .gives changed
  unfold Routine.optimized
  exact .ite (fun _ => akin.graph.simplify.bind fun _ _ simplified => optimizes simplified) fun _ =>
    optimizes akin.graph

theorem sameCalls (akin : r.Akin r') {p p' : Program} (alike : p.Alike p') :
    Executable.SameCalls ⟨p, r.graph, r.inputs, r.outputs⟩
      ⟨p', r'.graph, r'.inputs, r'.outputs⟩ := by
  intro args
  simp only [Executable.call, @Executable.bindInputs_congr ⟨p, r.graph, r.inputs, r.outputs⟩
    ⟨p', r'.graph, r'.inputs, r'.outputs⟩ akin.graph.arrays,
    @Executable.allocateOutputs_congr ⟨p, r.graph, r.inputs, r.outputs⟩ ⟨p', r'.graph, r'.inputs,
      r'.outputs⟩ akin.graph.arrays]
  simp only [akin.inputs, akin.outputs, akin.graph.args]
  refine .ite (fun _ => .fails rfl) fun _ => .seq (.of_eq rfl) fun _ => .seq (.of_eq rfl)
    fun memory => .ite (fun _ => .fails rfl) fun _ => ?_
  exact .seq (alike memory) fun _ => .of_eq rfl

theorem ofRoutine (akin : r.Akin r') (uniform : backend.Uniform) :
    Likewise Executable.SameCalls (Executable.ofRoutine r backend)
      (Executable.ofRoutine r' backend) := by
  have compiled := (uniform.compile akin.graph).bind fun p p' alike => Likewise.gives
    (akin.sameCalls alike)
  unfold Executable.ofRoutine
  simp only [akin.inputs, akin.outputs, akin.graph.arrays, akin.graph.freeSymbols] at compiled ⊢
  refine .ite (fun _ => .fails rfl) fun _ => ?_
  cases r.graph.arrays.keys.find? fun name => "__return".isPrefixOf name with
  | some name => exact .fails rfl
  | none => exact .ite (fun _ => .fails rfl) fun _ => compiled

end Routine.Akin

-- A function that traces the same whatever numbers it is given: every trace is a renumbering of one
-- and the same function.
def Traceable.Pure (trace : Traceable) : Prop :=
  ∀ specs, ∃ template, ∀ counter, Likewise (fun f f' : Lambda => ∃ σ, Function.Injective σ ∧
    f' = f.renamed σ) template (trace specs counter).1

namespace Wrapped

-- Traces and lowers a function from given numbers of variables and of unnamed graphs.
def draft (w : Wrapped) (counter unnamed : Nat) (specs : List ArgSpec) : Outcome Draft := do
  let f ← (w.trace specs counter).1
  (Lowering.lower w.book f (w.name?.map Naming.sanitized) (.new unnamed)).1

def routine (w : Wrapped) (backends : Dict Backend) (counter unnamed : Nat) (specs : List ArgSpec) :
    Outcome (Routine × Backend) := do
  let routine ← (← w.draft counter unnamed specs).toRoutine specs true
  match backends.get? w.backend with
  | some backend => return (routine, backend)
  | none => refuse (.unknownBackend w.backend backends.keys)

def executable (w : Wrapped) (backends : Dict Backend) (counter unnamed : Nat)
    (specs : List ArgSpec) (options : Options) : Outcome Executable := do
  let (routine, backend) ← w.routine backends counter unnamed specs
  Executable.ofRoutine (← routine.optimized backend options) backend

variable {w : Wrapped} (backends : Dict Backend) (pure : w.trace.Pure) (uniform : w.book.Uniform)
  (counter counter' unnamed unnamed' : Nat)
  (specs : List ArgSpec)

include pure uniform

theorem likewise_draft : Likewise Draft.Akin (w.draft counter unnamed specs)
    (w.draft counter' unnamed' specs) := by
  obtain ⟨template, traces⟩ := pure specs
  -- Both are compared with the lowering of what they are renumberings of.
  have drafts (counter unnamed : Nat) :
    Likewise Draft.Akin (template >>=
      fun f => (Lowering.lower w.book f (w.name?.map Naming.sanitized) (.new 0)).1)
      (w.draft counter unnamed specs) := by
    refine (traces counter).bind fun f f' renamed => ?_
    obtain ⟨σ, injective, rfl⟩ := renamed
    have lowered := Lowering.uniform_lower uniform injective f (w.name?.map Naming.sanitized)
      (.new 0) (.new unnamed) ⟨.nil, rfl⟩
    exact lowered.1.imp fun d d' ⟨_, kin⟩ => kin.akin
  exact ((drafts counter unnamed).symm.trans (drafts counter' unnamed')).imp
    fun _ _ ⟨_, first, second⟩ => Draft.Akin.trans first.symm second

theorem likewise_routine : Likewise (fun made made' => made.1.Akin made'.1 ∧ made'.2 = made.2 ∧
      backends.get? w.backend = some made.2)
      (w.routine backends counter unnamed specs) (w.routine backends counter' unnamed' specs) := by
  refine (likewise_draft pure uniform counter counter' unnamed unnamed' specs).bind fun d d' akin =>
    (akin.toRoutine specs true).bind fun r r' akin => ?_
  cases backends.get? w.backend with
  | none => exact .fails rfl
  | some backend => exact .gives ⟨akin, rfl, rfl⟩

theorem likewise_executable
    (backed : ∀ backend, backends.get? w.backend = some backend → backend.Uniform)
    (options : Options) :
    Likewise Executable.SameCalls (w.executable backends counter unnamed specs options)
      (w.executable backends counter' unnamed' specs options) := by
  refine (likewise_routine backends pure uniform counter counter' unnamed unnamed' specs).bind
    fun made made' related => ?_
  obtain ⟨routine, backend⟩ := made
  obtain ⟨routine', backend'⟩ := made'
  obtain ⟨akin, rfl, known⟩ := related
  have minds := backed _ known
  exact (akin.optimized minds options).bind fun r r' akin => akin.ofRoutine minds

end Wrapped

end TraceFlow
