import TraceFlow.Proofs.FilledKernels
import TraceFlow.Proofs.MapRuns
import TraceFlow.Proofs.SafeRuns

set_option autoImplicit false

namespace TraceFlow

open Machine Program
open Outcome (Both)

variable {effect : Effect}

-- The same elements, in whatever layout.
structure Tensor.Looks (t t' : Tensor) : Prop where
  elem : t'.elem = t.elem
  shape : t'.shape = t.shape
  reads : ∀ name index, Both Eq (do t.get (← t.locate name index))
    (do t'.get (← t'.locate name index))
  values : Both Eq t.values t'.values

theorem Tensor.Looks.refl (t : Tensor) : t.Looks t :=
  ⟨rfl, rfl, fun _ _ => .refl _, .refl _⟩

theorem Tensor.looks_option : (o : Option Tensor) → Option.Rel Tensor.Looks o o
  | none => .none
  | some t => .some (.refl t)

-- How two memories may differ, name by name: what is read looks alike, and what is written is the
-- same.
structure Views (related : String → Option Tensor → Option Tensor → Prop) (written : List String) :
    Prop where
  looks : ∀ name o o', related name o o' → Option.Rel Tensor.Looks o o'
  written : ∀ name ∈ written, ∀ o o', related name o o' ↔ o' = o

def Memory.Rel (related : String → Option Tensor → Option Tensor → Prop) (memory memory' : Memory) :
    Prop :=
  ∀ name, related name (memory.get? name) (memory'.get? name)

namespace Memory.Rel

variable {related : String → Option Tensor → Option Tensor → Prop} {written : List String}
  {memory memory' : Memory} {name : String} {symbols : Symbols}

variable (rel : Rel related memory memory')

include rel

theorem insert {t t' : Tensor} (holds : related name (some t) (some t')) :
    Rel related (Dict.insert memory name t) (Dict.insert memory' name t') := by
  intro other
  rw [Dict.get?_insert, Dict.get?_insert]
  by_cases here : other = name
  · rw [if_pos here, if_pos here, here]
    exact holds
  · rw [if_neg here, if_neg here]
    exact rel other

variable (views : Views related written)

include views

theorem array_written (member : name ∈ written) : memory'.array name = memory.array name := by
  rw [array, array, (views.written name member _ _).mp (rel name)]

theorem write (member : name ∈ written) (t : Tensor) : Rel related (Dict.insert memory name t)
    (Dict.insert memory' name t) :=
  rel.insert ((views.written name member _ _).mpr rfl)

theorem array (name : String) : Both Tensor.Looks (memory.array name) (memory'.array name) := by
  unfold Memory.array
  exact match memory.get? name, memory'.get? name, views.looks _ _ _ (rel name) with
    | _, _, .none => .fails _ _
    | _, _, .some looks => .gives looks

theorem element (name : String) (index : List Int) :
    Both Eq (do let t ← memory.array name; t.get (← t.locate name index))
      (do let t ← memory'.array name; t.get (← t.locate name index)) :=
  (rel.array views name).bind fun _ _ looks => looks.reads name index

theorem readElement (access : Access) (lookup : String → Option Int) :
    Both Eq (access.readElement memory lookup) (access.readElement memory' lookup) :=
  .seq (.refl _) fun index => rel.element views access.array index

theorem dynamicSymbols (entries : List (String × Access)) (symbols : Symbols) :
    Both Eq (Effect.MapBody.dynamicSymbols memory entries symbols)
      (Effect.MapBody.dynamicSymbols memory' entries symbols) := by
  induction entries generalizing symbols with
  | nil => exact .refl _
  | cons entry rest ih => exact .seq (rel.readElement views entry.2 _) fun _ => ih _

theorem readScalars (symbols : Symbols) (entries : List (String × Access)) (scalars : Dict Datum) :
    Both Eq (Effect.MapBody.readScalars memory symbols entries scalars)
      (Effect.MapBody.readScalars memory' symbols entries scalars) := by
  induction entries generalizing scalars with
  | nil => exact .refl _
  | cons entry rest ih => exact .seq (rel.readElement views entry.2 _) fun _ => ih _

theorem windowElement (body : Effect.MapBody) (name : String) (index : List Int) :
    Both Eq (body.windowElement memory name index) (body.windowElement memory' name index) := by
  unfold Effect.MapBody.windowElement
  cases Dict.lookup name body.windows with
  | none => exact .refl _
  | some w =>
    exact .ite (fun _ => .fails _ _) fun _ => .seq (.refl _) fun absolute => rel.element views
      w.array absolute

theorem kernelAt (body : Effect.MapBody) (symbols : Symbols) :
    Both Eq (body.kernelAt memory symbols) (body.kernelAt memory' symbols) :=
  .seq (rel.readScalars views symbols _ _) fun _ => Kernel.Expr.eval_agree _ (fun _ _ => rfl)
    (rel.windowElement views body)

theorem runPoints {body : Effect.MapBody} (target : body.output.array ∈ written) (symbols : Symbols)
    (points : List (List Int)) : Both (Rel related) (body.runPoints symbols memory points)
      (body.runPoints symbols memory' points) := by
  induction points generalizing memory memory' with
  | nil => exact .gives rel
  | cons point rest ih =>
    refine .bind ?_ fun _ _ rel => ih rel
    rw [Effect.MapBody.runPoint_eq, Effect.MapBody.runPoint_eq, rel.array_written views target]
    refine .seq (rel.kernelAt views body _) fun value => .seq (.refl _) fun index => .seq (.refl _)
      fun t => .seq (.refl _) fun offset => ?_
    exact .seq (.refl _) fun u => .gives (rel.write views target u)

theorem calleeArgs (site : CallSite) (arrays : Dict Descriptor) (entries : List (String × String))
    (args : Memory) : Both Eq (Effect.calleeArgs site arrays memory entries args)
      (Effect.calleeArgs site arrays memory' entries args) := by
  induction entries generalizing args with
  | nil => exact .refl _
  | cons entry rest ih =>
    refine .ite (fun _ => ih args) fun _ => ?_
    cases arrays.get? entry.1 with
    | none => exact .refl _
    | some d =>
      refine .seq (.refl _) fun blank => .bind (rel.array views entry.2) fun source source' looks =>
        .seq ?_ fun value => ih _
      have same : source'.count = source.count := by rw [Tensor.count, Tensor.count, looks.shape]
      unfold Effect.assignLogical
      rw [same, looks.shape]
      refine .seq (.refl _) fun count => .seq (.refl _) fun count' => .ite (fun _ => .fails _ _)
        fun _ => .seq (.refl _) fun offsets => ?_
      exact .seq looks.values fun values => .refl _

theorem takeOutputs (site : CallSite) (results : Memory) (entries : List (String × String))
    (targets : ∀ entry ∈ entries, entry.2 ∈ written) :
    Both (Rel related) (Effect.takeOutputs site results entries memory)
      (Effect.takeOutputs site results entries memory') := by
  induction entries generalizing memory memory' with
  | nil => exact .gives rel
  | cons entry rest ih =>
    obtain ⟨target, targets⟩ := List.forall_mem_cons.mp targets
    rw [Effect.takeOutputs, Effect.takeOutputs, rel.array_written views target]
    cases Dict.get? results entry.1 with
    | none => exact .fails _ _
    | some result =>
      exact .seq (.refl _) fun _ => .seq (.refl _) fun value => ih (rel.write views target value)
        targets

theorem take (edges : List Edge) (symbols : Symbols) : Both Eq (Machine.take memory symbols edges)
    (Machine.take memory' symbols edges) := by
  have assigned (entries : List (String × Binding)) :
    Both Eq (Machine.assigned memory symbols entries)
      (Machine.assigned memory' symbols entries) := by
    induction entries with
    | nil => exact .refl _
    | cons entry rest ih =>
      refine .seq ?_ fun _ => .seq ih fun _ => .refl _
      cases entry.2 with
      | const value => exact .refl _
      | element access => exact .seq (rel.readElement views access _) fun _ => .refl _
  induction edges with
  | nil => exact .refl _
  | cons e rest ih =>
    rw [take_cons, take_cons]
    exact .seq (.refl _) fun _ => .ite (fun _ => .seq (.seq (assigned _) fun _ => .refl _) fun _ =>
      .refl _) fun _ => ih

end Memory.Rel

def Effect.Respects (written : List String) (effect : Effect) : Prop :=
  ∀ related, Views related written → ∀ memory memory', Memory.Rel related memory memory' →
    ∀ symbols, Both (Memory.Rel related) (effect memory symbols) (effect memory' symbols)

namespace Effect

variable {written : List String}

theorem Respects.mono {more : List String} (respects : effect.Respects written)
    (sub : written ⊆ more) : effect.Respects more :=
  fun related views => respects related ⟨views.looks, fun name member => views.written name
    (sub member)⟩

theorem Respects.andThen {first second : Effect} (respects : first.Respects written)
    (respects' : second.Respects written) : (first.andThen second).Respects written :=
  fun _ views _ _ rel symbols => (respects _ views _ _ rel symbols).bind fun _ _ rel => respects' _
    views _ _ rel symbols

theorem respects_copy (source target : Access) : (copy source target).Respects [target.array] := by
  intro related views memory memory' rel symbols
  have moves (reads writes : List (List Int)) : Both (Memory.Rel related) (do
        let t ← memory.array source.array
        let values ← reads.mapM fun index => do t.get (← t.locate source.array index)
        let t ← memory.array target.array
        return memory.insert target.array (← writeAll t target.array (writes.zip values))) (do
        let t ← memory'.array source.array
        let values ← reads.mapM fun index => do t.get (← t.locate source.array index)
        let t ← memory'.array target.array
        return memory'.insert target.array (← writeAll t target.array (writes.zip values))) := by
    refine (rel.array views source.array).bind fun t t' looks => ?_
    refine .bind (.mapM (List.forall₂_same.mpr fun index _ => looks.reads source.array index))
      fun values values' same => ?_
    rw [List.forall₂_eq_eq_eq] at same
    rw [same, rel.array_written views List.mem_cons_self]
    exact .seq (.refl _) fun u => .seq (.refl _) fun v => .gives
      (rel.write views List.mem_cons_self v)
  refine .seq (.refl _) fun reads => .seq (.refl _) fun writes => .ite (fun _ => ?_) fun _ =>
    moves reads writes
  exact .seq (.refl _) fun _ => .seq (.refl _) fun _ => .seq (.refl _) fun _ => moves reads writes

theorem respects_map (body : MapBody) : (map body).Respects [body.output.array] :=
  fun _ views _ _ rel _ => .seq (rel.dynamicSymbols views _ _) fun symbols => .seq (.refl _)
    fun points => rel.runPoints views List.mem_cons_self symbols points

theorem respects_call (site : CallSite) (arrays : Dict Descriptor) (run : Effect) :
    (call site arrays run).Respects (site.outputs.entries.map Prod.snd) := by
  intro related views memory memory' rel symbols
  refine .seq (rel.calleeArgs views _ _ _ _) fun args => .seq (.refl _) fun bound => .seq (.refl _)
    fun results => ?_
  exact rel.takeOutputs views site results _ fun entry member => List.mem_map_of_mem member

end Effect

theorem respects_compileNode {node : Node} (compiled : compileNode node = .ok effect) :
    effect.Respects node.writes := by
  cases node with
  | copy source target =>
    cases compiled
    exact Effect.respects_copy source target
  | map m =>
    obtain ⟨body, made, compiled⟩ := bind_eq_ok.mp compiled
    cases compiled
    obtain ⟨-, -, target, only⟩ := prepare_eq_ok made
    rw [Node.writes, only]
    exact Effect.respects_map body
  | call site callee =>
    obtain ⟨program, -, compiled⟩ := bind_eq_ok.mp compiled
    cases compiled
    exact Effect.respects_call site callee.arrays program.run

theorem respects_compileNodes {nodes : List Node} (compiled : compileNodes nodes = .ok effect) :
    effect.Respects (nodes.flatMap Node.writes) := by
  induction nodes generalizing effect with
  | nil =>
    cases compiled
    exact fun _ _ _ _ rel _ => .gives rel
  | cons node rest ih =>
    rw [compileNodes_cons] at compiled
    obtain ⟨first, here, compiled⟩ := bind_eq_ok.mp compiled
    obtain ⟨others, there, compiled⟩ := bind_eq_ok.mp compiled
    cases compiled
    rw [List.flatMap_cons]
    exact ((respects_compileNode here).mono (List.subset_append_left _ _)).andThen
      ((ih there).mono (List.subset_append_right _ _))

theorem respects_effects {g : Graph} {effects : List Effect}
    (compiled : g.states.mapM compileState = .ok effects) :
    ∀ effect ∈ effects, effect.Respects (g.nodes.flatMap Node.writes) := by
  intro effect member
  obtain ⟨s, state, made⟩ := Outcome.forall₂_right (mapM_eq_ok.mp compiled) member
  refine (respects_compileNodes made).mono fun name written => ?_
  obtain ⟨node, inside, written⟩ := List.mem_flatMap.mp written
  exact List.mem_flatMap.mpr ⟨node, List.mem_flatMap.mpr ⟨s, state, inside⟩, written⟩

namespace Machine

variable {g g' : Graph} {effects : List Effect} {written : List String}
  {related : String → Option Tensor → Option Tensor → Prop}

-- A walk depends on the edges of a graph and the effects of its states, and keeps what all of them
-- keep.
theorem both_walk (edges : g'.edges = g.edges) (each : ∀ effect ∈ effects, effect.Respects written)
    (views : Views related written)
    {memory memory' : Memory} (rel : memory.Rel related memory') (remaining id : Nat)
    (symbols : Symbols) : Both (Memory.Rel related) (walk g effects remaining id memory symbols)
      (walk g' effects remaining id memory' symbols) := by
  have turns {id : Nat} {memory memory' : Memory} {symbols : Symbols}
    (rel : memory.Rel related memory')
      {next next' : Memory → Option (Nat × Symbols) → Outcome Memory}
      (goes : ∀ way {memory memory' : Memory}, memory.Rel related memory' →
        Both (Memory.Rel related) (next memory way) (next' memory' way)) :
      Both (Memory.Rel related) (do
        let memory ← (← effectOf effects id) memory symbols
        next memory (← take memory symbols (g.outEdges id))) (do
        let memory ← (← effectOf effects id) memory' symbols
        next' memory (← take memory symbols (g'.outEdges id))) := by
    cases found : effectOf effects id with
    | error failure => exact .fails _ _
    | ok effect =>
      have member : effect ∈ effects := by
        rw [effectOf] at found
        split at found
        next listed =>
          cases found
          exact List.mem_of_getElem? listed
        · cases found
      refine (each effect member _ views _ _ rel symbols).bind fun between between' rel => ?_
      rw [Graph.outEdges, Graph.outEdges, edges]
      exact .seq (rel.take views _ symbols) fun way => goes way rel
  induction remaining generalizing id memory memory' symbols with
  | zero =>
    rw [walk, walk]
    refine turns rel fun way _ _ rel => ?_
    cases way with
    | none => exact .gives rel
    | some next => exact .fails _ _
  | succ remaining ih =>
    rw [walk, walk]
    refine turns rel fun way _ _ rel => ?_
    cases way with
    | none => exact .gives rel
    | some next => exact ih rel next.1 next.2

end Machine

end TraceFlow
