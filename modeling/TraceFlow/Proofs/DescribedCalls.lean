import TraceFlow.Lambda.Script
import TraceFlow.Proofs.AcceptedCalls
import TraceFlow.Proofs.CallingConvention
import TraceFlow.Proofs.SessionHistory

set_option autoImplicit false

namespace TraceFlow

open Boundary List
open Outcome (Safe Mild Tame)

variable {specs : List ArgSpec} {args : List Argument} {counter counter' : Nat}
  {record : List Var → Tracer → TraceM (List Atom × Tracer)}

def Failure.isOrdinary : Failure → Bool
  | .fault _ => true
  | .error (.execution (.argumentMismatch _ _ _)) => false
  | .error (.execution _) => true
  | .error _ => false

theorem Failure.isOrdinary_of_isBenign {failure : Failure} (benign : failure.isBenign = true) :
    failure.isOrdinary = true := by
  cases failure with
  | fault cause => rfl
  | error cause =>
    cases cause with
    | execution cause => cases cause <;> first | rfl | cases benign
    | _ => cases benign

namespace Outcome

-- An outcome whose failure, if it fails, is ordinary.
def Ordinary {α : Type} (o : Outcome α) : Prop :=
  ∀ failure, o = .error failure → failure.isOrdinary = true

instance {α : Type} : (o : Outcome α) → Decidable (Ordinary o)
  | .ok _ => isTrue nofun
  | .error failure =>
    decidable_of_iff (failure.isOrdinary = true)
      ⟨by rintro ordinary _ ⟨⟩; exact ordinary, fun ordinary => ordinary failure rfl⟩

theorem Tame.ordinary {α : Type} {loose : String → Prop} {holds : α → Prop} {o : Outcome α}
    (tame : Tame loose holds o) : Ordinary o := by
  intro failure failed
  rcases tame with safe | ⟨n, -, unbound⟩
  · exact Failure.isOrdinary_of_isBenign (safe.benign failed)
  · cases failed.symm.trans unbound
    rfl

end Outcome

open Outcome (Ordinary)

theorem Dict.size_insert {α : Type} {d : Dict α} {key : String} (absent : d.contains key = false)
    (value : α) : (d.insert key value).size = d.size + 1 := by
  obtain ⟨entries⟩ := d
  change (Dict.insertEntry key value entries).length = entries.length + 1
  rw [Dict.contains, Dict.get?] at absent
  induction entries with
  | nil => rfl
  | cons entry rest ih =>
    rw [Dict.lookup] at absent
    split at absent
    · cases absent
    next away =>
      rw [Dict.insertEntry, if_neg away]
      split
      · rfl
      · exact congrArg (· + 1) (ih absent)

namespace Tensor

variable {t : Tensor}

theorem values_single (flat : t.shape = []) : t.values = (t.get 0).map ([·]) := by
  have located : t.offsets = .ok [0] := by
    rw [offsets, count, flat]
    cases t.strides <;> rfl
  rw [values, located, ok_bind, mapM_cons]
  cases t.get 0 <;> rfl

theorem reshape_single (flat : t.shape = []) : t.reshape [1] = (do
    let d ← t.get 0
    let s ← ofScalar ⟨t.elem, d⟩
    return s.withStorage t.storage) := by
  have counted : t.count = .ok 1 := by
    rw [count, flat]
    rfl
  have stored (d : Datum) : ofValues t.elem [1] [d] = ofScalar ⟨t.elem, d⟩ := by
    change (zeros t.elem [1] >>= fun blank => blank.set 0 d >>= fun u => u.store []) =
      zeros t.elem [1] >>= fun blank => blank.set 0 d
    exact congrArg _ (funext fun blank => bind_pure (blank.set 0 d))
  change (t.count >>= fun counted => if 1 ≠ counted then _ else _) = _
  rw [counted, ok_bind, if_neg (not_not.mpr rfl), values_single flat]
  cases t.get 0 with
  | error failure => rfl
  | ok d => exact congrArg (· >>= fun s : Tensor => pure (s.withStorage t.storage)) (stored d)

theorem storage_ofScalar {s : Scalar} (made : ofScalar s = .ok t) : t.storage = .cpuHeap := by
  obtain ⟨blank, zeros, written⟩ := bind_eq_ok.mp made
  obtain ⟨_, -, -, -, rfl⟩ := zeros_eq_ok.mp zeros
  exact (laidOutAs_set written).storage

end Tensor

def Argument.Regular : Argument → Prop
  | .tensor t => t.strides.length = t.rank
  | _ => True

def ArgSpec.Declares (spec : ArgSpec) (v : Var) : Prop :=
  v.shape = spec.shape ∧ v.elem = spec.elem

namespace Executable

open Builder (arrayShape)

variable {name : String} {a : Argument} {spec : ArgSpec} {t : Tensor} {v : Var}

variable {args : List Argument}

theorem passed_asTensor (described : ArgSpec.ofArgument a = .ok spec) (regular : a.Regular)
    (declares : spec.Declares v) (made : asTensor name a = .ok t) :
    t.elem = spec.elem ∧ t.shape = arrayShape v ∧ t.storage = spec.storage ∧
      (t.shape = [1] ∨ spec.strides? = some t.strides ∧ t.strides.length = t.rank) := by
  obtain ⟨shape, -⟩ := declares
  rw [arrayShape, shape]
  cases a with
  | tuple parts => cases described
  | scalar s =>
    cases described
    obtain ⟨single, ends, shape, elem, -⟩ := Tensor.exists_ofScalar s
    cases ends.symm.trans made
    exact ⟨elem, shape, Tensor.storage_ofScalar made, .inl shape⟩
  | tensor value =>
    cases described
    rw [asTensor] at made
    split at made
    next flat =>
      obtain ⟨elem, shape⟩ := Tensor.reshaped made
      refine ⟨elem, by rw [shape]; simp [flat], ?_, .inl shape⟩
      rw [Tensor.reshape_single (List.isEmpty_iff.mp flat)] at made
      obtain ⟨d, -, made⟩ := bind_eq_ok.mp made
      obtain ⟨s, -, made⟩ := bind_eq_ok.mp made
      cases made
      rfl
    next ranked =>
      cases made
      exact ⟨rfl, by simp [ranked], rfl, .inr ⟨rfl, regular⟩⟩

theorem safe_asTensor (described : ArgSpec.ofArgument a = .ok spec) : Mild (asTensor name a) := by
  have scalar (s : Scalar) : Mild (Tensor.ofScalar s) := by
    obtain ⟨t, made, -⟩ := Tensor.exists_ofScalar s
    rw [made]
    exact .gives trivial
  cases a with
  | tuple parts => cases described
  | scalar s => exact scalar s
  | tensor value =>
    rw [asTensor]
    split
    next flat =>
      rw [Tensor.reshape_single (List.isEmpty_iff.mp flat)]
      exact (Tensor.safe_get value 0).andThen fun d => (scalar _).andThen fun s => .gives trivial
    · exact .gives trivial

theorem checkArgument_fitting {d : Descriptor} {n : Nat} (elem : t.elem = d.elem)
    (shape : t.shape = d.shape) (counted : sizeProduct t.shape = .ok n)
    (laidOut : n ≤ 1 ∨ t.strides = d.strides) (storage : t.storage = d.storage) :
    checkArgument name t d = .ok () := by
  have counts : t.count = .ok n := counted
  have counts' : d.count = .ok n := by rw [Descriptor.count, ← shape, counted]
  unfold checkArgument
  simp only [elem, shape, storage, counts, counts', if_pos, ok_bind, Outcome.pure_eq,
    beq_self_eq_true]
  rcases laidOut with few | same
  · simp [few]
  · simp [same]

theorem checkArgument_described {i : Nat} {inner outer : Descriptor}
    (described : ArgSpec.ofArgument a = .ok spec) (regular : a.Regular)
    (declares : spec.Declares v) (dense : Descriptor.dense (arrayShape v) v.elem = .ok inner)
    (planned : inputArray i inner spec = .ok outer)
    (made : asTensor name a = .ok t) : checkArgument name t outer.exposed = .ok () := by
  obtain ⟨shape, elem, -⟩ := Descriptor.dense_eq_ok dense
  obtain ⟨typed, n, laid, -, counted, dense', rfl⟩ := inputArray_iff.mp planned
  obtain ⟨shape', elem', -⟩ := Descriptor.dense_eq_ok dense'
  obtain ⟨elem'', shape'', storage, laidOut⟩ := passed_asTensor described regular declares made
  have shaped : t.shape = inner.shape := shape''.trans shape.symm
  refine checkArgument_fitting ((elem''.trans typed).trans elem'.symm) (shaped.trans shape'.symm)
    (shaped ▸ counted) ?_ storage
  rcases laidOut with single | ⟨strides, ranked⟩
  · rw [← shaped, single] at counted
    cases counted
    exact .inl (le_refl 1)
  · refine .inr ?_
    rw [Tensor.rank, shaped, ← Descriptor.rank] at ranked
    simp only [Descriptor.exposed, strides, ranked, if_pos]

-- Arguments that an executable does not refuse: each passes the check against its array, and all
-- names are apart.
structure Receives (x : Executable) (args : List Argument) : Prop where
  counted : args.length = x.inputs.length
  named : x.graph.args = x.inputs ++ x.outputs
  distinct : (x.inputs ++ x.outputs).Nodup
  checks : ∀ pair ∈ x.inputs.zip args, ∃ d, x.graph.array? pair.1 = some d ∧ ∀ t,
    asTensor pair.1 pair.2 = .ok t → checkArgument pair.1 t d = .ok ()
  outputs : ∀ name ∈ x.outputs, ∃ d, x.graph.array? name = some d

variable {x : Executable}

theorem ends_of_inserts {α : Type} {key : α → String} {make : α → Outcome Tensor}
    {run : Memory → List α → Outcome Memory} {items : List α}
    (nil : ∀ memory, run memory [] = .ok memory)
    (cons : ∀ memory, ∀ a ∈ items, ∀ rest, Dict.contains memory (key a) = false →
      run memory (a :: rest) = make a >>= fun t => run (Dict.insert memory (key a) t) rest)
    (distinct : (items.map key).Nodup) {memory : Memory}
    (absent : ∀ a ∈ items, memory.contains (key a) = false) :
    (∃ a ∈ items, ∃ failure, make a = .error failure ∧ run memory items = .error failure) ∨
      ∃ after, run memory items = .ok after ∧ after.size = memory.size + items.length := by
  induction items generalizing memory with
  | nil => exact .inr ⟨memory, nil memory, rfl⟩
  | cons a rest ih =>
    rw [map_cons, nodup_cons] at distinct
    obtain ⟨free, absent⟩ := forall_mem_cons.mp absent
    rw [cons memory a mem_cons_self rest free]
    cases made : make a with
    | error failure => exact .inl ⟨a, mem_cons_self, failure, made, rfl⟩
    | ok t =>
      rw [ok_bind]
      have absent' : ∀ other ∈ rest, (memory.insert (key a) t).contains (key other) = false := by
        intro other member
        have away : key other ≠ key a := fun same => distinct.1 (mem_map.mpr ⟨other, member, same⟩)
        rw [Dict.contains, Dict.get?_insert, if_neg away]
        exact absent other member
      rcases ih (fun memory other member => cons memory other (mem_cons_of_mem _ member)) distinct.2
        absent' with
        ⟨other, member, failure, failed, ends⟩ | ⟨after, ends, size⟩
      · exact .inl ⟨other, mem_cons_of_mem _ member, failure, failed, ends⟩
      · refine .inr ⟨after, ends, ?_⟩
        rw [size, Dict.size_insert free, length_cons]
        omega

theorem Receives.accept (receives : x.Receives args) :
    (∃ pair ∈ x.inputs.zip args, ∃ failure, asTensor pair.1 pair.2 = .error failure ∧
      x.accept args = .error failure) ∨
      (∃ name ∈ x.outputs, ∃ d failure, x.graph.array? name = some d ∧
        Tensor.ofDescriptor d = .error failure ∧ x.accept args = .error failure) ∨
      ∃ given, x.accept args = .ok given := by
  have names : (x.inputs.zip args).map Prod.fst = x.inputs :=
    map_fst_zip (Nat.le_of_eq receives.counted.symm)
  obtain ⟨apart, apart', disjoint⟩ := nodup_append.mp receives.distinct
  rw [Executable.accept, if_neg (not_not.mpr receives.counted)]
  have single : ((x.inputs.zip args).map Prod.fst).Nodup := by rwa [names]
  have bind (memory : Memory) (pair : String × Argument) (member : pair ∈ x.inputs.zip args)
    (rest : List (String × Argument)) :
      x.bindInputs memory (pair :: rest) = asTensor pair.1 pair.2 >>=
      fun t => x.bindInputs (Dict.insert memory pair.1 t) rest := by
    obtain ⟨d, known, passes⟩ := receives.checks pair member
    rw [bindInputs, descriptor_eq_ok.mpr known, ok_bind]
    cases made : asTensor pair.1 pair.2 with
    | error failure => rfl
    | ok t =>
      rw [ok_bind, passes t made]
      rfl
  have allocate (memory : Memory) (name : String) (rest : List String)
    (free : Dict.contains memory name = false) : x.allocateOutputs memory (name :: rest) =
      (x.descriptor name >>= Tensor.ofDescriptor) >>= fun t => x.allocateOutputs
        (Dict.insert memory name t) rest := by
    rw [allocateOutputs, if_neg (by rw [free]; exact Bool.false_ne_true), bind_assoc]
  rcases ends_of_inserts (fun _ => rfl) (fun memory pair member rest _ => bind memory pair member
    rest) single
      fun pair _ => (rfl : Dict.contains ({} : Memory) pair.1 = false) with
    ⟨pair, member, failure, failed, ends⟩ | ⟨bound, ends, size⟩
  · refine .inl ⟨pair, member, failure, failed, ?_⟩
    simp only [ends]
    rfl
  · have absent : ∀ name ∈ x.outputs, bound.contains name = false := by
      intro name member
      have other : name ∉ (x.inputs.zip args).map Prod.fst := by
        rw [names]
        exact fun listed => disjoint name listed name member rfl
      rw [Dict.contains, (get?_bindInputs ends).1 name other]
      rfl
    rcases ends_of_inserts (fun _ => rfl) (fun memory name _ rest => allocate memory name rest)
      (by simpa using apart') absent with
      ⟨name, member, failure, failed, ends'⟩ | ⟨given, ends', size'⟩
    · obtain ⟨d, declared⟩ := receives.outputs name member
      rw [descriptor_eq_ok.mpr declared, ok_bind] at failed
      refine .inr (.inl ⟨name, member, d, failure, declared, failed, ?_⟩)
      simp only [ends]
      show x.allocateOutputs bound x.outputs >>= _ = _
      rw [ends']
      rfl
    · have complete : given.size = x.graph.args.length := by
        rw [size', size, receives.named, length_append, length_zip, receives.counted, Nat.min_self]
        exact congrArg (· + _) (Nat.zero_add _)
      refine .inr (.inr ⟨given, ?_⟩)
      show x.bindInputs {} (x.inputs.zip args) >>= _ = _
      rw [ends, ok_bind, ends', ok_bind, if_neg (not_not.mpr complete)]
      rfl

theorem Receives.succeeds_accept (receives : x.Receives args)
    (passed : ∀ a ∈ args, (asTensor "" a).Succeeds) :
    (x.accept args).Succeeds ↔ ∀ name ∈ x.outputs, ∀ d, x.graph.array? name = some d →
    (Tensor.ofDescriptor d).Succeeds := by
  constructor
  · rintro ⟨given, accepted⟩ name member d known
    obtain ⟨-, -, apart⟩ := nodup_append.mp receives.distinct
    obtain ⟨_, t, known', made, -⟩ := (Accepted.of_accept accepted).outputs name member fun input =>
      apart name input name member rfl
    cases known.symm.trans known'
    exact ⟨t, made⟩
  · intro outputs
    rcases receives.accept with ⟨⟨name, a⟩, member, failure, failed, -⟩ | ⟨name, member, d, failure,
      known, failed, -⟩ | accepted
    · obtain ⟨t, made⟩ := passed a (of_mem_zip member).2
      cases failed.symm.trans (asTensor_name name made)
    · obtain ⟨t, made⟩ := outputs name member d known
      cases failed.symm.trans made
    · exact accepted

theorem Receives.ordinary_call (receives : x.Receives args)
    (described : ∀ a ∈ args, ∃ spec, ArgSpec.ofArgument a = .ok spec)
    {loose : String → Prop} (serves : Effect.Serves loose x.graph.arrays x.program.run)
    (foreign : ∀ name d, x.graph.arrays.get? name = some d → d.transient = false →
      name ∈ x.inputs ++ x.outputs) : Ordinary (x.call args) := by
  -- Arguments are refused as the data that they are, if at all.
  have refused {α : Type} {holds : α → Prop} {o : Outcome α} {failure : Failure}
    (safe : Safe holds o) (failed : o = .error failure)
      (ends : x.accept args = .error failure) : Ordinary (x.call args) := by
    rw [call_eq, ends]
    rintro _ ⟨⟩
    exact Failure.isOrdinary_of_isBenign (safe.benign failed)
  rcases receives.accept with ⟨pair, member, failure, failed, ends⟩ | ⟨name, -, d, failure,
    -, failed, ends⟩ | ⟨given, ends⟩
  · obtain ⟨spec, described⟩ := described pair.2 (of_mem_zip member).2
    exact refused (safe_asTensor described) failed ends
  · exact refused (Tensor.safe_ofDescriptor d) failed ends
  · exact (tame_call ends serves foreign).ordinary

end Executable

theorem Draft.Stages.receives {d : Draft} {feeds feeds' : List Feed}
    (stages : d.Stages specs feeds feeds') {fuel : Nat} {f : Lambda}
    (lowers : Lowers fuel f d) (declares : List.Forall₂ ArgSpec.Declares specs f.inputs)
    (described : describeCall args = .ok specs)
    (regular : ∀ a ∈ args, a.Regular) (program : Program) :
    Executable.Receives ⟨program, (d.routine feeds feeds').graph, feeds.map Feed.array,
      feeds'.map Feed.array⟩ args where
  counted := by
    rw [(mapM_eq_ok.mp described).length_eq, stages.counted, length_map, stages.length_feeds]
  named := stages.args_eq
  distinct := stages.nodup_args
  checks := by
    rintro ⟨name, a⟩ member
    obtain ⟨i, found⟩ := mem_iff_getElem?.mp member
    obtain ⟨named, given⟩ := getElem?_zip_eq_some.mp found
    obtain ⟨spec, listed, describes⟩ := Outcome.exists_of_forall₂ (mapM_eq_ok.mp described).flip
      given
    obtain ⟨v, input, declared⟩ := Outcome.exists_of_forall₂ declares.flip listed
    obtain ⟨inside, inner, place, known, dense⟩ := lowers.input input
    obtain ⟨inner', outer, known', planned, feed⟩ := stages.enters_at place listed lowers.sound
    cases known.symm.trans known'
    rw [getElem?_map, feed] at named
    cases named
    refine ⟨outer.exposed, stages.get?_routine_input (mem_of_getElem? feed), fun t made => ?_⟩
    exact Executable.checkArgument_described describes (regular a (mem_of_getElem? given)) declared
      dense planned made
  outputs name member := by
    obtain ⟨feed, listed, rfl⟩ := mem_map.mp member
    exact ⟨_, stages.get?_routine_output listed⟩

-- A closure that takes no input back.
def Tracer.Extends (record : List Var → Tracer → TraceM (List Atom × Tracer)) : Prop :=
  ∀ {inputs tracer counter outputs after counter'}, Gives (record inputs tracer) counter (outputs,
    after) counter' → tracer.inputs <+: after.inputs

namespace Script

def bindLabels : List String → List Var → Scope → Scope
  | label :: labels, v :: vs, scope => bindLabels labels vs (scope.insert label v)
  | _, _, scope => scope

theorem createInputs_eq (labels : List String) (specs : List ArgSpec) (scope : Scope) :
    createInputs labels specs scope = (do
    let inputs ← specs.mapM fun spec => Var.trace spec.shape spec.elem
    return (inputs, bindLabels labels inputs scope)) := by
  induction specs generalizing labels scope with
  | nil => cases labels <;> rfl
  | cons spec rest ih =>
    rw [createInputs, mapM_cons]
    simp only [ih, bind_assoc, pure_bind]
    cases labels <;> rfl

theorem trace_labels (names : List String) (consts : List (String × ArraySpec))
    (constVars : List VarSpec) (constValues : List ArraySpec)
    (effects : List String) (equations : List EquationSpec) (outputs : List AtomSpec) :
    ∃ record, Tracer.Extends record ∧ trace ⟨.labels names, consts, constVars, constValues, effects,
      equations, outputs⟩ = Traceable.blanket record := by
  refine ⟨fun inputs tracer => do
    let created ← createAll constVars (bindLabels names inputs {})
    let bound ← createConsts consts created.2
    let traced ← traceEquations equations bound.2
    let outs ← lookupAll traced.2 outputs
    let values ← buildArrays constValues
    return (outs, { tracer with
      constVars := bound.1.map Prod.fst ++ created.1, consts := bound.1.map Prod.snd ++ values,
        effects, equations := traced.1 }), ?_, ?_⟩
  · intro inputs tracer counter outputs after counter' given
    obtain ⟨_, _, -, given⟩ := gives_bind.mp given
    obtain ⟨_, _, -, given⟩ := gives_bind.mp given
    obtain ⟨_, _, -, given⟩ := gives_bind.mp given
    obtain ⟨_, _, -, given⟩ := gives_bind.mp given
    obtain ⟨_, _, -, given⟩ := gives_bind.mp given
    cases given
    exact prefix_rfl
  · funext specs
    simp only [trace, createInputs_eq, Traceable.blanket, bind_assoc, pure_bind]

end Script

theorem declares_traced {inputs : List Var}
    (traced : Gives (specs.mapM fun spec => Var.trace spec.shape spec.elem : TraceM (List Var))
      counter inputs counter') : List.Forall₂ ArgSpec.Declares specs inputs := by
  induction specs generalizing counter inputs with
  | nil =>
    cases traced
    exact .nil
  | cons spec rest ih =>
    rw [mapM_cons] at traced
    obtain ⟨v, between, first, next⟩ := gives_bind.mp traced
    obtain ⟨later, between', others, ends⟩ := gives_bind.mp next
    cases ends
    cases first
    exact .cons ⟨rfl, rfl⟩ (ih others)

theorem Tracer.inputs_finish {tracer : Tracer} {outputs : List Atom} {f : Lambda}
    (finished : Gives (tracer.finish outputs) counter f counter') : f.inputs = tracer.inputs := by
  rw [finish, Lambda.close] at finished
  split at finished
  · cases finished
  · cases finished
    rfl

theorem Traceable.declares_blanket (keeps : Tracer.Extends record) {f : Lambda}
    (traced : Gives (blanket record specs) counter f counter') :
    ∃ inputs more, f.inputs = inputs ++ more ∧ List.Forall₂ ArgSpec.Declares specs inputs := by
  obtain ⟨inputs, between, first, traced⟩ := gives_bind.mp traced
  obtain ⟨⟨outputs, after⟩, between', recorded, finished⟩ := gives_bind.mp traced
  obtain ⟨more, added⟩ := keeps recorded
  exact ⟨inputs, more, (Tracer.inputs_finish finished).trans added.symm, declares_traced first⟩

-- Lowering has counted the arguments, so the closure adds no inputs.
theorem Draft.Stages.declares {d : Draft} {feeds feeds' : List Feed}
    (stages : d.Stages specs feeds feeds') {fuel : Nat} {f : Lambda} (lowers : Lowers fuel f d)
    (keeps : Tracer.Extends record)
    (traced : Gives (Traceable.blanket record specs) counter f counter') :
    List.Forall₂ ArgSpec.Declares specs f.inputs := by
  obtain ⟨inputs, more, split, each⟩ := Traceable.declares_blanket keeps traced
  have counted := stages.counted.trans lowers.length_inputs
  rw [split, length_append, each.length_eq] at counted
  rwa [split, eq_nil_of_length_eq_zero (by omega : more.length = 0), append_nil]

theorem Wrapped.ordinary_call {w : Wrapped} (rules : w.book = .builtin)
    (blanket : w.trace = .blanket record) (keeps : Tracer.Extends record) {backends : Dict Backend}
    (cpu : backends.get? w.backend = some .cpu) {unnamed : Nat} {l : Lowered}
    (made : w.routine backends counter unnamed specs = .ok (l.routine, l.backend))
    {options : Options} {x : Executable}
    (compiled : l.executable options = .ok x) (described : describeCall args = .ok specs)
    (regular : ∀ a ∈ args, a.Regular) : Ordinary (x.call args) := by
  obtain ⟨d, drafted, made⟩ := bind_eq_ok.mp made
  obtain ⟨r, finished, made⟩ := bind_eq_ok.mp made
  obtain ⟨f, traced, lowered⟩ := bind_eq_ok.mp drafted
  rw [cpu] at made
  obtain ⟨rfl, onCpu⟩ := Prod.mk.inj (Except.ok.inj made)
  rw [rules] at lowered
  rw [blanket] at traced
  have lowers := lowers_of_gives (gives_of_ends lowered)
  rw [Lowered.executable, ← onCpu] at compiled
  obtain ⟨plain, optimizes, serves, foreign⟩ :=
    lowers.exists_plain (fun _ => True) (.inl trivial) finished compiled
  obtain ⟨feeds, feeds', stages, same, -⟩ := toRoutine_iff.mp finished
  have receives := stages.receives lowers (stages.declares lowers keeps (gives_of_ends traced))
    described regular plain.program
  rw [optimizes.call optimizes.runs]
  rw [optimizes.plain, same] at serves foreign ⊢
  refine receives.ordinary_call (fun a member => ?_) serves foreign
  obtain ⟨spec, -, describes⟩ := Outcome.forall₂_left (mapM_eq_ok.mp described) member
  exact ⟨spec, describes⟩

namespace Session

-- However a function was lowered and compiled in a session, anew or from its caches, and under
-- whatever options: a call with arguments of the description it was lowered for fails, if it fails,
-- with a fault or while it runs, and no argument is refused.
theorem call_of_same_description {s s₁ s₂ : Session} {wrapped : List Wrapped} {known : List Lowered}
    (sound : s.Sound wrapped known) {w : Wrapped} (member : w ∈ wrapped) (rules : w.book = .builtin)
    {record : List Var → Tracer → TraceM (List Atom × Tracer)}
    (blanket : w.trace = .blanket record) (keeps : Tracer.Extends record)
    (cpu : s.backends.get? w.backend = some .cpu) {args : List Argument} {l : Lowered}
    (lowered : Gives (lower w args) s l s₁) {options? : Option Options} {c : Compiled}
    (compiled : Gives (compile l options?) s₁ c s₂) {args' : List Argument}
    (same : describeCall args' = describeCall args)
    (regular : ∀ a ∈ args', a.Regular) : Ordinary (c.executable.call args') := by
  obtain ⟨counter, unnamed, known', -, sound', -, likewise⟩ := sound.lower member args
  rw [lowered] at likewise sound'
  cases described : describeCall args with
  | error failure =>
    rw [described] at likewise
    cases likewise
  | ok specs =>
    rw [described, ok_bind] at likewise
    generalize made : w.routine s.backends counter unnamed specs = routine at likewise
    cases likewise with
    | gives both =>
      obtain ⟨rfl, listed⟩ := both
      obtain ⟨-, -, likewise⟩ := sound'.compile listed options?
      rw [compiled] at likewise
      generalize ends : l.executable (s₁.resolveOptions options?) = executable at likewise
      cases likewise with
      | gives both =>
        obtain ⟨rfl, -⟩ := both
        exact Wrapped.ordinary_call rules blanket keeps cpu made ends (same.trans described) regular

theorem gives_called (w : Wrapped) (args args' : List Argument) (options? : Option Options)
    {α : Type} (test : Outcome (List Tensor) → α) {result : α} {s : Session} (ran : ((do
      let l ← lower w args
      let c ← compile l options?
      return test (c.executable.call args') : StepM Session α) s).1 = .ok result) :
    ∃ l s₁ c s₂, Gives (lower w args) s l s₁ ∧ Gives (compile l options?) s₁ c s₂ ∧ test
      (c.executable.call args') = result := by
  have given := gives_of_ends ran
  obtain ⟨l, s₁, lowered, rest⟩ := gives_bind.mp given
  obtain ⟨c, s₂, compiled, ends⟩ := gives_bind.mp rest
  exact ⟨l, s₁, c, s₂, lowered, compiled, (gives_pure.mp ends).1.symm⟩

def quotientScript : Script :=
  ⟨.labels ["x", "y"], [], [], [], [], [.binary "div" (.label "x") (.label "y") "z"], [.label "z"]⟩

def wrapping (trace : Traceable) : Wrapped :=
  ⟨0, trace, none, .builtin, "cpu"⟩

def wrappedOnce : Session :=
  { Session.new 4 [.cpu] with stages := 1 }

theorem sound_wrappedOnce (trace : Traceable) : wrappedOnce.Sound [wrapping trace] [] :=
  (Sound.of_empty (s := Session.new 4 [.cpu]) rfl rfl).wraps rfl

-- Lowered for a strided array and a scalar without zeros, and called with others of which one is a
-- zero.
theorem call_of_same_description_quotient :
    let args (x : UInt8) (y : UInt64) : List Argument :=
    [.tensor ⟨.uint8, [2], [3], .gpuGlobal, #[x, 0, 0, x]⟩, .scalar ⟨.uint8, .uint y⟩]
    ∃ l s₁ c s₂, Gives (lower (wrapping quotientScript.trace) (args 6 2)) wrappedOnce l s₁ ∧
    Gives (compile l (some (.all false))) s₁ c s₂ ∧
      (c.executable.call (args 5 0)).map (fun _ => ()) =
      .error (.error (.execution .divisionByZero)) ∧ Ordinary (c.executable.call (args 5 0)) := by
  intro args
  have ran : ((do
      let l ← lower (wrapping quotientScript.trace) (args 6 2)
      let c ← compile l (some (.all false))
      return (c.executable.call (args 5 0)).map fun _ => () :
        StepM Session (Outcome Unit)) wrappedOnce).1 =
      .ok (.error (.error (.execution .divisionByZero))) := by decide +kernel
  obtain ⟨l, s₁, c, s₂, lowered, compiled, failed⟩ := gives_called _ _ _ _ (·.map fun _ => ()) ran
  obtain ⟨record, keeps, blanket⟩ :=
    Script.trace_labels ["x", "y"] [] [] [] [] [.binary "div" (.label "x") (.label "y") "z"]
      [.label "z"]
  refine ⟨l, s₁, c, s₂, lowered, compiled, failed, ?_⟩
  refine call_of_same_description (sound_wrappedOnce _) mem_cons_self rfl blanket keeps rfl lowered
    compiled rfl fun a member => ?_
  rcases mem_pair.mp member with rfl | rfl
  · rfl
  · trivial

-- A closure that starts over, with an input of its own.
def restarting : List Var → Tracer → TraceM (List Atom × Tracer) := fun _ _ => do
  let x ← Var.trace [2, 3] .int64
  let y ← Var.trace [2, 3] .int64
  return ([.var y], { inputs := [x], equations := [⟨"neg", [.var x], [y], {}, false⟩] })

def Refuses (trace : Traceable) (args : List Argument) : Prop :=
  ∃ l s₁ c s₂, Gives (lower (wrapping trace) args) wrappedOnce l s₁ ∧
    Gives (compile l (some (.all false))) s₁ c s₂ ∧ ¬ Ordinary (c.executable.call args)

-- The array has too few strides, and is lowered for dense ones; the closure is lowered for the
-- input it declares.
theorem call_of_same_description_refused :
    (∃ t, Tensor.ofDescriptor { shape := [2], elem := .uint8, strides := [] } = .ok t ∧
      (∃ record, Tracer.Extends record ∧ quotientScript.trace = Traceable.blanket record) ∧
      Refuses quotientScript.trace [.tensor t, .scalar ⟨.uint8, .uint 2⟩]) ∧
    ∃ t, Tensor.zeros .int64 [6] = .ok t ∧ Refuses (Traceable.blanket restarting) [.tensor t] := by
  have refuses {trace : Traceable} {args : List Argument} (ran : ((do
      let l ← lower (wrapping trace) args
      let c ← compile l (some (.all false))
      return decide (Ordinary (c.executable.call args)) :
        StepM Session Bool) wrappedOnce).1 = .ok false) : Refuses trace args := by
    obtain ⟨l, s₁, c, s₂, lowered, compiled, failed⟩ :=
      gives_called _ _ _ _ (fun o => decide (Ordinary o)) ran
    exact ⟨l, s₁, c, s₂, lowered, compiled, of_decide_eq_false failed⟩
  constructor
  · refine ⟨⟨.uint8, [2], [], .cpuHeap, #[0]⟩, by decide +kernel, Script.trace_labels ..,
      refuses ?_⟩
    decide +kernel
  · refine ⟨⟨.int64, [6], [1], .cpuHeap, Array.replicate 48 0⟩, by decide +kernel, refuses ?_⟩
    decide +kernel

end Session

end TraceFlow
