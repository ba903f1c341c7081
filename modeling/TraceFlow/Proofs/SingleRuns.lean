import TraceFlow.Proofs.FreshNames
import TraceFlow.Proofs.MapAxes
import TraceFlow.Proofs.StagedCalls
import TraceFlow.Proofs.SwappedGraphs

set_option autoImplicit false

namespace TraceFlow

open Boundary Builder Lowering Machine Program List

variable {before name : String}

variable {name : String} {mapped : Nat} {vs inputs : List Var} {names : List String} {e : Equation}
  {out : Var} {nodes : Nodes} {emitted : List Node}
  {array : Descriptor}

namespace Naming

theorem isIdentifier_iff : isIdentifier name = true ↔ ∃ c rest, name.toList = c :: rest ∧
    (c.isAlpha = true ∨ c = '_') ∧ ∀ c ∈ rest, isNameChar c = true := by
  rw [isIdentifier]
  cases name.toList with
  | nil => simp
  | cons c rest => simp

theorem isNameChar_of_first {c : Char} (first : c.isAlpha = true ∨ c = '_') :
    isNameChar c = true := by
  rcases first with alpha | rfl
  · simp [isNameChar, Char.isAlphanum, alpha]
  · decide

theorem isIdentifier_joined {first second : String} (left : isIdentifier first = true)
    (right : isIdentifier second = true) : isIdentifier (first ++ "_" ++ second) = true := by
  obtain ⟨c, rest, spelled, start, chars⟩ := isIdentifier_iff.mp left
  obtain ⟨c', rest', spelled', start', chars'⟩ := isIdentifier_iff.mp right
  refine isIdentifier_iff.mpr ⟨c, rest ++ '_' :: c' :: rest', ?_, start, ?_⟩
  · rw [String.toList_append, String.toList_append, spelled, spelled']
    simp
  · simp only [mem_append, mem_cons]
    rintro d (before | rfl | rfl | behind)
    · exact chars d before
    · decide
    · exact isNameChar_of_first start'
    · exact chars' d behind

end Naming

theorem Builder.Creates.contains_cases {d d' : Draft}
    (creates : Creates before d mapped vs names d')
    (present : d'.graph.arrays.contains name = true) :
    d.graph.arrays.contains name = true ∨ name ∈ names := by
  induction creates with
  | nil => exact .inl present
  | @cons d d' mapped v vs first names array unmapped made _ ih =>
    rcases ih present with old | new
    · change (d.graph.arrays.insert first array).contains name = true at old
      rw [Dict.contains, Dict.get?_insert] at old
      split at old
      next same => exact .inr (same ▸ mem_cons_self)
      next => exact .inl old
    · exact .inr (mem_cons_of_mem _ new)

-- Names that are neither of the boundary nor of a return array: two underscores begin them only
-- behind the mark of reserved names.
def Naming.Inner (name : String) : Prop :=
  ¬ ['_', '_'] <+: name.toList ∨ reservedMark.toList <+: name.toList

theorem Naming.inner_fresh (k : Nat) : Inner (fresh k) := by
  rcases fresh_cases k with ⟨same, -⟩ | same
  · obtain ⟨j, rest, written, -⟩ := letters_proposed k
    refine .inl ?_
    rw [same, written, cons_prefix_cons]
    exact fun both => forall_letter (P := fun c => c ≠ '_') (by decide) j both.1.symm
  · refine .inr ?_
    rw [same, String.toList_append]
    exact prefix_append _ _

theorem Naming.Inner.not_prefix (inner : Inner name) (mark : List Char)
    (under : ['_', '_'] <+: mark)
    (unlike : ¬ mark <+: reservedMark.toList ∧ ¬ reservedMark.toList <+: mark) :
    ¬ mark <+: name.toList := by
  intro begins
  rcases inner with plain | marked
  · exact plain (under.trans begins)
  · rcases prefix_or_prefix_of_prefix begins marked with first | second
    · exact unlike.1 first
    · exact unlike.2 second

theorem Naming.Inner.ne_boundary (inner : Inner name) (i : Nat) :
    name ≠ inputName i ∧ name ≠ outputName i := by
  constructor
  · rintro rfl
    refine inner.not_prefix "__jace_input_".toList (by decide) (by decide) ?_
    rw [inputName, String.toList_append]
    exact prefix_append _ _
  · rintro rfl
    refine inner.not_prefix "__jace_output_".toList (by decide) (by decide) ?_
    rw [outputName, String.toList_append]
    exact prefix_append _ _

theorem Naming.Inner.not_return (inner : Inner name) : "__return".isPrefixOf name = false := by
  rw [← Bool.not_eq_true]
  exact fun begins => inner.not_prefix "__return".toList (by decide) (by decide)
    (String.startsWith_string_iff.mp begins)

def Atom.array? (array : Var → String) : Atom → Option String
  | .var v => some (array v)
  | .literal _ => none

def Draft.arrayOf (d : Draft) (v : Var) : String :=
  (d.nameOf? v).getD ""

theorem names_of_resolved {d : Draft} {allowed : Bool} {atoms : List Atom}
    {names : List (Option String)}
    (resolved : List.Forall₂ (Resolved d allowed) atoms names) : names = atoms.map
      (Atom.array? d.arrayOf) := by
  induction resolved with
  | nil => rfl
  | @cons atom name? _ _ here _ ih =>
    rw [map_cons, ← ih]
    cases atom <;> cases name? <;> simp_all [Resolved, Atom.array?, Draft.arrayOf]

-- An equation with one result, as a function of given inputs.
structure Equation.Single (e : Equation) (inputs : List Var) (out : Var) : Prop where
  pure : e.effectful = false
  outputs : e.outputs = [out]
  closed : ∀ v, .var v ∈ e.inputs → v ∈ inputs
  nameable : Var.Nameable (inputs ++ [out])
  fits : ∀ v ∈ inputs ++ [out], Shape.Fits v.shape
  whole : ∀ v ∈ inputs ++ [out], v.elem.isFloat = false

-- The arrays of the inputs and of the output, which is none of them.
structure Arranged (inputs : List Var) (out : Var) (array : Var → String) (output : String)
    (arrays : Dict Descriptor) : Prop where
  operand : ∀ v ∈ inputs, array v ≠ output ∧ ∃ d, arrays.get? (array v) = some d ∧
    d.shape = arrayShape v
  result : ∃ d, arrays.get? output = some d ∧ d.shape = arrayShape out

-- The draft with the inputs, and the one with the output.
structure OpensSingle (e : Equation) (inputs : List Var) (out : Var) (ins : List String)
    (entered : Draft) (output : String) (opened : Draft) : Prop where
  single : e.Single inputs out
  identifier : Naming.isIdentifier e.primitive = true
  enters : Creates "" (Draft.new "unnamed_SDFG_0") 0 inputs ins entered
  creates : Creates "" { entered with inputs? := some ins } inputs.length [out] [output] opened

theorem Equation.Single.exists_opens (single : e.Single inputs out)
    (identifier : Naming.isIdentifier e.primitive = true) : ∃ ins entered output opened,
    OpensSingle e inputs out ins entered output opened := by
  have dense (v : Var) (member : v ∈ inputs ++ [out]) := (single.fits v member).padded.dense v.elem
  obtain ⟨ins, entered, enters, awaits⟩ :=
    (Awaits.new "unnamed_SDFG_0" 0 (inputs ++ [out])).exists_creates single.nameable
    fun v member => dense v (mem_append_left _ member)
  rw [Nat.zero_add] at awaits
  have waiting : Awaits { entered with inputs? := some ins } inputs.length ([out] ++ []) :=
    ⟨awaits.unmapped, awaits.taken⟩
  obtain ⟨outs, opened, creates, -⟩ := waiting.exists_creates single.nameable.append_right
    fun v member => dense v (mem_append_right _ member)
  obtain ⟨output, rfl⟩ : ∃ output, outs = [output] := length_eq_one_iff.mp creates.length_eq
  exact ⟨ins, entered, output, opened, single, identifier, enters, creates⟩

namespace OpensSingle

variable {e : Equation} {inputs : List Var} {out : Var} {ins : List String} {entered : Draft}
  {output : String} {opened : Draft}
  (opens : OpensSingle e inputs out ins entered output opened)

include opens

theorem output_creates : ∃ array, opened.nameOf? out = some output ∧
    opened.graph.arrays.get? output = some array ∧
    Descriptor.dense (arrayShape out) out.elem = .ok array := by
  obtain ⟨_, array, named, mapped, present, made⟩ := opens.creates.getElem? (j := 0) rfl
  cases named
  exact ⟨array, mapped, present, made⟩

theorem input_creates {v : Var} (member : v ∈ inputs) : ∃ (k : Nat) (array : Descriptor),
    inputs[k]? = some v ∧ ins[k]? = some (entered.arrayOf v) ∧
    Resolved entered true (.var v) (some (entered.arrayOf v)) ∧ opened.graph.arrays.get?
      (entered.arrayOf v) = some array ∧ array.shape = arrayShape v := by
  obtain ⟨k, listed⟩ := mem_iff_getElem?.mp member
  obtain ⟨name, array, named, mapped, present, made⟩ := opens.enters.getElem? listed
  have same : entered.arrayOf v = name := by rw [Draft.arrayOf, mapped]; rfl
  rw [same]
  exact ⟨k, array, listed, named, ⟨mapped, by rw [Dict.contains, present]; rfl⟩,
    opens.creates.get?_older present, (Descriptor.dense_eq_ok made).1⟩

theorem output_new : output ∉ ins := by
  intro member
  have old : entered.graph.arrays.contains output = true := opens.enters.present member
  have new : entered.graph.arrays.contains output = false :=
    opens.creates.fresh.2 output mem_cons_self
  rw [new] at old
  cases old

theorem arranged : Arranged inputs out entered.arrayOf output opened.graph.arrays where
  operand v member := by
    obtain ⟨k, array, -, named, -, known, shape⟩ := opens.input_creates member
    exact ⟨fun same => opens.output_new (same ▸ mem_of_getElem? named), array, known, shape⟩
  result := by
    obtain ⟨array, -, known, made⟩ := opens.output_creates
    exact ⟨array, known, (Descriptor.dense_eq_ok made).1⟩

theorem lowers (noded : nodes opened.graph.arrays (e.inputs.map (Atom.array? entered.arrayOf))
    [output] e = .ok emitted) :
    LowersSingle nodes e inputs ins entered (e.inputs.map (Atom.array? entered.arrayOf))
      [output] opened emitted [some output] := by
  obtain ⟨array, mapped, present, -⟩ := opens.output_creates
  have single := opens.single
  have resolved (atom : Atom) (member : atom ∈ e.inputs) :
    Resolved entered true atom (atom.array? entered.arrayOf) := by
    cases atom with
    | literal s => rfl
    | var v =>
      obtain ⟨-, -, -, -, resolved, -⟩ := opens.input_creates (single.closed v member)
      exact resolved
  have identifier' : Naming.isIdentifier output = true := by
    rcases opens.creates.name_cases mem_cons_self with ⟨k, rfl⟩ | ⟨v, member, asks⟩
    · exact Naming.isIdentifier_fresh k
    · exact (single.nameable.append_right.proper v member output asks).1
  have label : e.label [output] = e.primitive ++ "_" ++ output := by
    rw [Equation.label]
    rfl
  refine ⟨single.pure, opens.enters, forall₂_map_right_iff.mpr (forall₂_same.mpr resolved),
    single.outputs ▸ opens.creates,
    label ▸ Naming.isIdentifier_joined opens.identifier identifier', noded, ?_, ?_⟩
  · have sound : ({ entered with inputs? := some ins } : Draft).Sound :=
      (Draft.Sound.new "unnamed_SDFG_0").enter (f := e.over inputs) (.none rfl) opens.enters
    have formed := sound.toFormed.congr opens.creates.machine_eq
    have tidy := sound.tidy.creates opens.creates
    refine Draft.Sound.check ⟨⟨formed.toShaped.followedBy (Block.shaped_single _ _), formed.start,
      formed.first⟩, ?_⟩
    exact ⟨tidy.own.congr rfl rfl rfl, tidy.ids, tidy.injective, tidy.known, tidy.inputs,
      tidy.distinct, tidy.outputs⟩
  · rw [single.outputs]
    exact .cons ⟨mapped, by rw [Dict.contains, present]; rfl⟩ .nil

theorem unique {ins' outs' : List String} {entered' opened' : Draft}
    {names' results' : List (Option String)}
    (lowers : LowersSingle nodes e inputs ins' entered' names' outs' opened' emitted results') :
    nodes opened.graph.arrays (e.inputs.map (Atom.array? entered.arrayOf))
      [output] e = .ok emitted := by
  have same {d d₁ d₂ : Draft} {mapped : Nat} {vs : List Var} {names₁ names₂ : List String}
    (first : Creates "" d mapped vs names₁ d₁)
      (second : Creates "" d mapped vs names₂ d₂) : names₁ = names₂ ∧ d₁ = d₂ := by
    have one : Gives (createVars vs "") ⟨d :: [], mapped, 0⟩ names₁ _ :=
      gives_createVars.mpr ⟨d₁, first, rfl⟩
    have two : Gives (createVars vs "") ⟨d :: [], mapped, 0⟩ names₂ _ :=
      gives_createVars.mpr ⟨d₂, second, rfl⟩
    cases one.symm.trans two
    exact ⟨rfl, rfl⟩
  obtain ⟨rfl, rfl⟩ := same opens.enters lowers.enters
  have creates := lowers.creates
  rw [opens.single.outputs] at creates
  obtain ⟨rfl, rfl⟩ := same opens.creates creates
  rw [← names_of_resolved lowers.resolved]
  exact lowers.noded

theorem array_cases (known : opened.graph.arrays.get? name = some array) :
    ∃ v ∈ inputs ++ [out], Descriptor.dense (arrayShape v) v.elem = .ok array ∧
    Naming.Inner name := by
  have inner {vs : List Var} {d d' : Draft} {mapped : Nat} {names : List String}
    (creates : Creates "" d mapped vs names d')
      (among : ∀ v ∈ vs, v ∈ inputs ++ [out]) (member : name ∈ names) : Naming.Inner name := by
    rcases creates.name_cases member with ⟨k, rfl⟩ | ⟨v, listed, asks⟩
    · exact Naming.inner_fresh k
    · exact .inl (opens.single.nameable.proper v (among v listed) name asks).2.2.1
  have present : opened.graph.arrays.contains name = true := by rw [Dict.contains, known]; rfl
  rcases opens.creates.contains_cases present with old | new
  · rcases opens.enters.contains_cases old with none | member
    · cases none
    · obtain ⟨j, found⟩ := mem_iff_getElem?.mp member
      have inside : j < inputs.length :=
        opens.enters.length_eq ▸ (List.getElem?_eq_some_iff.mp found).1
      obtain ⟨name', array', found', -, present, made⟩ :=
        opens.enters.getElem? (getElem?_eq_getElem inside)
      cases found.symm.trans found'
      cases known.symm.trans (opens.creates.get?_older present)
      exact ⟨inputs[j], mem_append_left _ (getElem_mem inside), made,
        inner opens.enters (fun v listed => mem_append_left _ listed) member⟩
  · obtain ⟨array', -, known', made⟩ := opens.output_creates
    cases mem_singleton.mp new
    cases known.symm.trans known'
    exact ⟨out, mem_append_right _ mem_cons_self, made,
      inner opens.creates (fun v listed => mem_append_right _ listed) new⟩

end OpensSingle

-- The draft of the function, with the nodes of its state. They run as an effect.
structure FillsSingle (e : Equation) (inputs : List Var) (out : Var) (ins : List String)
    (entered : Draft) (output : String) (opened : Draft) (emitted : List Node) (effect : Effect) :
    Prop extends OpensSingle e inputs out ins entered output opened where
  compiled : compileNodes emitted = .ok effect
  admitted : ∀ node ∈ emitted, node.Admitted opened.graph.arrays

namespace FillsSingle

variable {e : Equation} {inputs : List Var} {out : Var} {ins : List String} {entered : Draft}
  {output : String} {opened : Draft} {emitted : List Node}
  {effect : Effect} (fills : FillsSingle e inputs out ins entered output opened emitted effect)
    {specs : List ArgSpec}

include fills

theorem lowersSingle : LowersSingle (fun _ _ _ _ => .ok emitted) e inputs ins entered
    (e.inputs.map (Atom.array? entered.arrayOf)) [output] opened emitted [some output] :=
  fills.lowers rfl

theorem fits (known : opened.graph.arrays.get? name = some array) : Shape.Fits array.shape := by
  obtain ⟨v, member, made, -⟩ := fills.array_cases known
  obtain ⟨shape, -, -, -⟩ := Descriptor.dense_eq_ok made
  exact shape ▸ (fills.single.fits v member).padded

theorem roomy : (e.lowered [output] opened emitted [some output]).Roomy where
  listable _ _ known _ := (fills.fits known).counted
  variable_ name _ := fills.lowersSingle.variable_ name

theorem meets (declares : List.Forall₂ ArgSpec.Declares specs inputs) :
    (e.lowered [output] opened emitted [some output]).Meets specs where
  counted := by rw [declares.length_eq, fills.lowersSingle.inputs_eq, fills.enters.length_eq]
  apart := by
    intro name member input
    cases mem_singleton.mp member
    rw [fills.lowersSingle.inputs_eq] at input
    exact fills.output_new input
  used := .inr (cons_ne_nil _ _)
  clear i := by
    have unused (name : String) (other : ∀ inner, Naming.Inner inner → inner ≠ name) :
      opened.graph.arrays.contains name = false := by
      rw [← Bool.not_eq_true]
      intro present
      obtain ⟨array, known⟩ := Option.isSome_iff_exists.mp present
      obtain ⟨-, -, -, inner⟩ := fills.array_cases known
      exact other name inner rfl
    exact ⟨unused _ fun _ inner => (inner.ne_boundary i).1, unused _ fun _ inner =>
      (inner.ne_boundary i).2⟩
  enters i name spec array input given known := by
    rw [fills.lowersSingle.inputs_eq] at input
    obtain ⟨v, listed, declared⟩ := Outcome.exists_of_forall₂ declares.flip given
    obtain ⟨name', array', named, -, present, made⟩ := fills.enters.getElem? listed
    cases input.symm.trans named
    cases known.symm.trans (fills.creates.get?_older present)
    obtain ⟨shape, elem, -, -⟩ := Descriptor.dense_eq_ok made
    obtain ⟨count, counted, -⟩ :=
      (fills.single.fits v (mem_append_left _ (mem_of_getElem? listed))).counted
    refine ⟨_, inputArray_iff.mpr ⟨by rw [elem, declared.2], count, array, declared.1 ▸ counted,
      ?_, by rw [shape, elem]; exact made, rfl⟩⟩
    rw [shape, arrayShape]
    split
    next empty =>
      rw [List.isEmpty_iff.mp empty] at counted
      exact counted
    next => exact counted
  leaves name member array known := by
    obtain ⟨v, -, made, -⟩ := fills.array_cases known
    obtain ⟨shape, elem, -, -⟩ := Descriptor.dense_eq_ok made
    exact ⟨array, by rw [shape, elem]; exact made⟩

theorem passes {feeds feeds' : List Feed}
    (stages : (e.lowered [output] opened emitted [some output]).Stages specs feeds feeds') :
    Draft.Stages.Passes (e.lowered [output] opened emitted [some output]) feeds feeds' := by
  have block := (fills.lowersSingle.row emitted).block
  have states : (e.lowered [output] opened emitted [some output]).graph.states =
    [⟨"initial_state", []⟩, ⟨e.label [output], emitted⟩] :=
    congrArg Block.states block
  have edges : (e.lowered [output] opened emitted [some output]).graph.edges =
    [{ source := 0, target := 1 }] := congrArg Block.edges block
  have nodes : (e.lowered [output] opened emitted [some output]).graph.nodes = emitted := by
    rw [Graph.nodes, states]
    simp
  refine ⟨fun _ _ _ known => fills.fits known, fun _ _ _ known => fills.fits known, ?_, ?_, ?_⟩
  · rw [nodes]
    exact fun node member => (fills.admitted node member).2 _ fun name array known =>
      stages.get?_routine known
  · rw [edges]
    intro edge member entry assigned
    cases mem_singleton.mp member
    cases assigned
  · refine eq_nil_iff_forall_not_mem.mpr fun symbol free => ?_
    have symbols : (e.lowered [output] opened emitted [some output]).graph.symbols = {} :=
      fills.creates.symbols_eq.trans fills.enters.symbols_eq
    obtain ⟨used, -⟩ := Graph.mem_freeSymbols.mp free
    rw [symbols, edges, nodes] at used
    simp only [mem_singleton, exists_eq_left] at used
    rcases used with declared | guards | ⟨node, member, uses⟩
    · cases declared
    · cases guards
    · rw [(fills.admitted node member).1] at uses
      cases uses

theorem evaluate_eq (lowered : (lower .builtin (e.over inputs) none (.new 0)).1 =
    .ok (e.lowered [output] opened emitted [some output]))
    (declares : List.Forall₂ ArgSpec.Declares specs inputs) (options : Options) :
    ∃ feeds feeds' x, (e.lowered [output] opened emitted [some output]).Between specs feeds feeds'
      [Effect.skip, effect] ∧
      Executable.ofRoutine ((e.lowered [output] opened emitted [some output]).routine feeds feeds')
        .cpu = .ok x ∧ ∀ args, (e.over inputs).evaluate specs options args = x.call args := by
  have lowers := lowers_of_gives (gives_of_ends lowered)
  have ready := Draft.Ready.of_lowers lowers
  obtain ⟨feeds, feeds', stages⟩ := (fills.meets declares).exists_stages ready
  have checked := stages.check_routine ready.toSound (fills.passes stages)
  have made : Draft.toRoutine _ specs true = .ok _ :=
    toRoutine_iff.mpr ⟨feeds, feeds', stages, rfl, fun _ => checked⟩
  have ordered := toRoutine_everywhere lowers made
  have compiled : [(⟨"initial_state", []⟩ : State), ⟨e.label [output], emitted⟩].mapM compileState =
    .ok [Effect.skip, effect] := by
    simp [compileState, compileNodes, fills.compiled]
  have between := Draft.Between.of_row stages ready.toSound fills.roomy checked ordered.here.2
    (fills.lowersSingle.row emitted) compiled
  obtain ⟨x, executable⟩ := between.exists_executable fun name array known => by
    obtain ⟨-, -, -, inner⟩ := fills.array_cases known
    exact inner.not_return
  exact ⟨feeds, feeds', x, between, executable, between.evaluate_eq executable lowered options⟩

end FillsSingle

-- Elements for every index of a variable, and of its type.
structure Var.Elements (v : Var) (values : List Datum) : Prop where
  counted : values.length = v.shape.prod
  typed : ∀ d ∈ values, d.cast v.elem = d

theorem prod_arrayShape (v : Var) : (arrayShape v).prod = v.shape.prod := by
  rw [arrayShape]
  split
  next scalar => rw [List.isEmpty_iff.mp scalar]; rfl
  next => rfl

namespace HoldsOperand

variable {memory : Memory} {v : Var} {values : List Datum}
  (holds : HoldsOperand memory name v values)

include holds

theorem elements (whole : v.elem.isFloat = false) : v.Elements values := by
  obtain ⟨count, t, -, dense, elem, shape, known⟩ := holds
  refine ⟨?_, fun d member => ?_⟩
  · rw [(dense.values_eq_ok.mp known).1, eq_prod_of_sizeProduct dense.counted, shape,
      prod_arrayShape]
  · have same := map_inj_left.mp
      ((Tensor.map_recode_values (elem ▸ ElemType.readsBack whole) known).trans (map_id _).symm) d
        member
    rwa [elem, ElemType.recode_eq_cast whole] at same

theorem congr {between : Memory} (same : between.get? name = memory.get? name) :
    HoldsOperand between name v values := by
  obtain ⟨count, t, found, rest⟩ := holds
  exact ⟨count, t, same.trans found, rest⟩

end HoldsOperand

structure Called (inputs : List Var) (specs : List ArgSpec) (args : List Argument)
    (given : Var → List Datum) : Prop where
  described : describeCall args = .ok specs
  declares : List.Forall₂ ArgSpec.Declares specs inputs
  regular : ∀ a ∈ args, a.Regular
  elements : List.Forall₂ (fun v a => Argument.elements a = .ok (given v)) inputs args

-- Memory where the nodes of the equation start: the inputs hold what is given, and the output is
-- blank.
structure Memory.Set (memory : Memory) (inputs : List Var) (out : Var) (array : Var → String)
    (output : String) (given : Var → List Datum) (t : Tensor) (count : Nat) : Prop where
  holds : ∀ v ∈ inputs, HoldsOperand memory (array v) v (given v)
  blank : memory.get? output = some t
  dense : t.Dense count
  elem : t.elem = out.elem
  shape : t.shape = arrayShape out

-- How a call ends: it fails, or gives an array with the given elements.
def Equation.Ends (e : Equation) (inputs : List Var) (out : Var) (specs : List ArgSpec)
    (options : Options) (args : List Argument) : Outcome (List Datum) → Prop
  | .error failure => (e.over inputs).evaluate specs options args = .error failure
  | .ok values =>
    ∃ r, (e.over inputs).evaluate specs options args = .ok [r] ∧ r.elem = out.elem ∧
      r.shape = arrayShape out ∧ r.values = .ok values

theorem FillsSingle.evaluate {ins : List String} {entered : Draft} {output : String}
    {opened : Draft}
    {effect : Effect} (fills : FillsSingle e inputs out ins entered output opened emitted effect)
    (lowered : (lower .builtin (e.over inputs) none (.new 0)).1 =
      .ok (e.lowered [output] opened emitted [some output])) {specs : List ArgSpec}
    {args : List Argument} {given : Var → List Datum} (called : Called inputs specs args given)
    (options : Options) :
    ∃ memory t count, memory.Set inputs out entered.arrayOf output given t count ∧
      (∀ failure, effect memory {} = .error failure →
        e.Ends inputs out specs options args (.error failure)) ∧
      ∀ done u values, effect memory {} = .ok done →
      (∀ name, name ≠ output → done.get? name = memory.get? name) → done.get? output = some u →
        t.LaidOutAs u → u.values = .ok values → e.Ends inputs out specs options args
          (.ok values) := by
  have lowers := lowers_of_gives (gives_of_ends lowered)
  have sound := lowers.sound
  obtain ⟨feeds, feeds', x, between, executable, evaluated⟩ :=
    fills.evaluate_eq lowered called.declares options
  have stages := between.stages
  have elements (a : Argument) (member : a ∈ args) : a.elements.Succeeds := by
    obtain ⟨v, -, known⟩ := Outcome.forall₂_right called.elements member
    exact ⟨_, known⟩
  obtain ⟨_, accepted⟩ :=
    between.accept executable lowers called.declares called.described called.regular elements
  obtain ⟨memory, after, fed, fails, succeeds⟩ := between.call executable accepted elements
  have same := fills.lowersSingle.inputs_eq
  -- The inputs are copied from the arguments.
  have holds (v : Var) (member : v ∈ inputs) :
    HoldsOperand after (entered.arrayOf v) v (given v) := by
    obtain ⟨k, -, listed, named, -⟩ := fills.input_creates member
    obtain ⟨a, argument, known⟩ := Outcome.exists_of_forall₂ called.elements.flip listed
    obtain ⟨name, array, named', -, -, declares, elem, shape⟩ :=
      fills.lowersSingle.declares_input listed
    cases named.symm.trans named'
    obtain ⟨_, known', holds⟩ := fed.holds_input stages sound (same ▸ named) argument declares elem
      shape
      (fills.single.whole v (mem_append_left _ member))
    cases known.symm.trans known'
    exact holds
  obtain ⟨array, -, known, made⟩ := fills.output_creates
  obtain ⟨shape, elem, -, -⟩ := Descriptor.dense_eq_ok made
  obtain ⟨count, t, -, made, dense, typed, shaped⟩ :=
    (fills.fits known).counted.ofDescriptor (sound.dense output array known)
  obtain ⟨t', made', found⟩ :=
    fed.get?_memory stages sound ⟨known, fills.lowersSingle.variable_ output⟩
  cases made.symm.trans made'
  have blank : after.get? output = some t := by
    rw [fed.get?_other stages sound (same ▸ fills.output_new), found]
  have runs : [Effect.skip, effect].foldlM (fun memory effect => effect memory {}) after =
    effect after {} := by
    simp only [foldlM_cons, foldlM_nil, Effect.skip, ok_bind, bind_pure]
  refine ⟨after, t, count, ⟨holds, blank, dense, typed.trans elem, shaped.trans shape⟩,
    fun failure failed => ?_,
    fun done u values ran others found' laidOut read => ?_⟩
  · exact (evaluated args).trans (fails failure (runs.trans failed))
  · have kept (name : String) (absent : opened.graph.arrays.contains name = false) :
      done.get? name = after.get? name := by
      refine others name fun clash => ?_
      rw [clash, Dict.contains, known] at absent
      cases absent
    obtain ⟨results, called, each⟩ :=
      succeeds done (runs.trans ran) kept fun name member array' known' => by
      cases mem_singleton.mp member
      cases known'.symm.trans known
      exact ⟨u, count, found', dense.laidOutAs laidOut, laidOut.elem.trans typed,
        laidOut.shape.trans shaped⟩
    obtain ⟨r, _, ⟨u', values', found'', read', elem', shape', holds'⟩, none, rfl⟩ :=
      forall₂_cons_left_iff.mp each
    cases none
    cases found'.symm.trans found''
    cases read.symm.trans read'
    refine ⟨r, (evaluated args).trans
      called,
      by rw [elem', laidOut.elem, typed, elem], by rw [shape', laidOut.shape, shaped, shape], ?_⟩
    have back : u.elem.ReadsBack := by
      rw [laidOut.elem, typed, elem]
      exact ElemType.readsBack (fills.single.whole out (mem_append_right _ mem_cons_self))
    rw [holds', Tensor.map_recode_values back read]

theorem builtin_of_nodes {primitive : String} (known : nodesOf? primitive = some nodes) :
    Naming.isIdentifier primitive = true ∧
    ∃ rule, RuleBook.builtin.get? primitive = some rule ∧ ∀ kit, Flat (rule.apply kit) nodes := by
  have listed : primitive ∈ ["gather", "concatenate", "dynamic_slice", "reshape"] ++
    operations.map Elementwise.primitive := by
    unfold nodesOf? at known
    split at known
    next => simp [*]
    split at known
    next => simp [*]
    split at known
    next => simp [*]
    split at known
    next => simp [*]
    next =>
      obtain ⟨op, found, -⟩ := Option.map_eq_some_iff.mp known
      have same : op.primitive = primitive := by simpa using find?_some found
      exact mem_append_right _ (same ▸ mem_map_of_mem (mem_of_find?_eq_some found))
  have table :
    ∀ primitive ∈
      ["gather", "concatenate", "dynamic_slice", "reshape"] ++ operations.map Elementwise.primitive,
      Naming.isIdentifier primitive = true ∧ (RuleBook.builtin.get? primitive).isSome = true ∧
      primitive ≠ "cond" ∧ primitive ≠ "pjit" := by
    decide +kernel
  obtain ⟨identifier, ruled, notCond, notCall⟩ := table primitive listed
  obtain ⟨rule, ruled⟩ := Option.isSome_iff_exists.mp ruled
  rcases builtin_cases ruled with ⟨same, -⟩ | ⟨same, -⟩ | ⟨nodes', known', flat⟩
  · exact absurd same notCond
  · exact absurd same notCall
  · cases known.symm.trans known'
    exact ⟨identifier, rule, ruled, flat⟩

theorem Equation.Single.evaluate (single : e.Single inputs out)
    (known : nodesOf? e.primitive = some nodes) :
    ∃ array output arrays, Arranged inputs out array output arrays ∧
      (Outcome.Succeeds (lower .builtin (e.over inputs) none (.new 0)).1 ↔
        (nodes arrays (e.inputs.map (Atom.array? array)) [output] e).Succeeds) ∧
      ∀ emitted effect, nodes arrays (e.inputs.map (Atom.array? array)) [output] e = .ok emitted →
      compileNodes emitted = .ok effect →
        (∀ node ∈ emitted, node.Admitted arrays) → ∀ specs args given options,
        Called inputs specs args given →
        ∃ memory t count, memory.Set inputs out array output given t count ∧
          (∀ failure, effect memory {} = .error failure →
            e.Ends inputs out specs options args (.error failure)) ∧
          ∀ done u values, effect memory {} = .ok done →
          (∀ name, name ≠ output → done.get? name = memory.get? name) → done.get? output = some u →
            t.LaidOutAs u → u.values = .ok values → e.Ends inputs out specs options args
              (.ok values) := by
  obtain ⟨identifier, rule, ruled, flat⟩ := builtin_of_nodes known
  obtain ⟨ins, entered, output, opened, opens⟩ := single.exists_opens identifier
  have kept : e.outputs.any Var.isDropped = false := by
    rw [single.outputs, any_cons, any_nil, Bool.or_false]
    exact single.nameable.used out (mem_append_right _ mem_cons_self)
  have lowers {child : Draft} := @lower_over_eq_ok e nodes child inputs rule ruled flat kept
  have lowered {emitted : List Node}
    (noded : nodes opened.graph.arrays (e.inputs.map (Atom.array? entered.arrayOf)) [output] e =
      .ok emitted) :=
    lowers.mpr ⟨_, _, _, _, _, _, _, opens.lowers noded, rfl⟩
  refine ⟨entered.arrayOf, output, opened.graph.arrays, opens.arranged,
    ⟨?_, fun ⟨emitted, noded⟩ => ⟨_, lowered noded⟩⟩,
    fun emitted effect noded compiled admitted specs args given options called => ?_⟩
  · rintro ⟨child, made⟩
    obtain ⟨_, _, _, _, _, emitted, _, other, -⟩ := lowers.mp made
    exact ⟨emitted, opens.unique other⟩
  · exact FillsSingle.evaluate ⟨opens, compiled, admitted⟩ (lowered noded) called options

end TraceFlow
