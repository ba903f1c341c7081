import TraceFlow.Proofs.SingleRuns

set_option autoImplicit false

namespace TraceFlow

open Boundary Builder Lowering Machine List

variable {d : Draft} {mapped : Nat} {names : List String} {name title : String} {f : Lambda}

theorem Tensor.values_reshape {t u : Tensor} {shape : List Nat} (made : t.reshape shape = .ok u)
    (few : shape.prod * 24 < indexBound) :
    ∃ values count, t.values = .ok values ∧ u.Dense count ∧ u.values = .ok
      (values.map t.elem.recode) := by
  obtain ⟨values, v, read, stored, rfl⟩ := reshape_eq_ok.mp made
  obtain ⟨counted, blank, zeros, stored⟩ := ofValues_eq_ok.mp stored
  obtain ⟨count, counted', -, -, rfl⟩ := zeros_eq_ok.mp zeros
  cases counted.symm.trans counted'
  have dense : Dense ⟨t.elem, shape, Shape.rowMajor shape, .cpuHeap,
    Array.replicate (values.length * t.elem.width) 0⟩ values.length :=
    ⟨⟨counted, eq_prod_of_sizeProduct counted ▸ few⟩, rfl, Array.size_replicate⟩
  obtain ⟨v', assigned, laidOut, holds⟩ := dense.assign rfl
  rw [Tensor.assign, dense.offsets, ok_bind, stored] at assigned
  cases assigned
  have dense' := dense.laidOutAs laidOut
  exact ⟨values, _, read, ⟨⟨dense'.counted, dense'.few⟩, dense'.strides, dense'.size⟩, holds⟩

theorem get?_bindAll {g g' : Graph} {pairs : List (String × Tensor)}
    (bound : bindAll g pairs = .ok g') (distinct : (pairs.map Prod.fst).Nodup) :
    g' = { g with constants := g'.constants } ∧
    (∀ name, name ∉ pairs.map Prod.fst → g'.constants.get? name = g.constants.get? name) ∧
      ∀ name value, (name, value) ∈ pairs → ∃ array fixed, g.arrays.get? name = some array ∧
      Graph.fits array value = .ok true ∧
        value.reshape array.shape = .ok fixed ∧ g'.constants.get? name = some fixed := by
  induction pairs generalizing g with
  | nil =>
    cases bound
    exact ⟨(Graph.eta _).symm, fun _ _ => rfl, by simp⟩
  | cons pair rest ih =>
    obtain ⟨first, value⟩ := pair
    obtain ⟨between, here, later⟩ := bind_eq_ok.mp bound
    obtain ⟨array, fixed, known, fits, reshaped, rfl⟩ := bindConstant_eq_ok here
    rw [map_cons, nodup_cons] at distinct
    obtain ⟨same, others, each⟩ := ih later distinct.2
    refine ⟨same, fun name away => ?_, fun name value member => ?_⟩
    · rw [map_cons, mem_cons, not_or] at away
      rw [others name away.2]
      exact (Dict.get?_insert ..).trans (if_neg away.1)
    · rcases mem_cons.mp member with same | there
      · cases same
        refine ⟨array, fixed, known, fits, reshaped, ?_⟩
        rw [others _ distinct.1]
        exact (Dict.get?_insert ..).trans (if_pos rfl)
      · exact each name value there

theorem LowersAll.idle {lower : Lambda → Option String → LowerM Draft} {d' : Draft} {count : Nat}
    {equations : List Equation} (all : LowersAll lower d mapped equations count d')
    (idle : ∀ e ∈ equations, e.outputs.any Var.isDropped = true) : count = 0 ∧ d' = d := by
  induction all with
  | nil => exact ⟨rfl, rfl⟩
  | dropped _ _ _ ih => exact ih fun e member => idle e (mem_cons_of_mem _ member)
  | cons kept _ _ _ =>
    rw [idle _ mem_cons_self] at kept
    cases kept

def Draft.Mirrors (d : Draft) (_ : Nat) (arrays : Dict Descriptor) (v : Var) (feed : Feed) : Prop :=
  ∃ name found rest, d.nameOf? v = some name ∧ arrays.get? name = some found ∧
    Descriptor.dense (arrayShape v) v.elem = .ok feed.outer ∧
    feed.array = aliasMark ++ rest ∧ feed.source = .full name found ∧
    feed.target = .full feed.array found

theorem Aliases.plans {state i : Nat} {d' : Draft} {known known' : List (Var × String)}
    {atoms : List Atom}
    (aliases : Aliases state mapped d known atoms names d' known') (first : state = 0)
    {label : String} {nodes : List Node} (single : d.graph.states = [⟨label, nodes⟩]) :
    ∃ vs feeds, Feed.Plans d.Mirrors i d.graph.arrays vs feeds ∧ d' = d.fed [] label nodes feeds ∧
    known' = known ++ vs.zip (feeds.map Feed.array) ∧ (∀ v ∈ vs, .var v ∈ atoms) ∧ List.Forall₂
        (fun atom name => ∃ v w, atom = .var v ∧ (w, name) ∈ known' ∧ w.id = v.id) atoms names := by
  subst first
  induction aliases generalizing i nodes with
  | nil d known => exact ⟨[], [], .nil _ _, (fed_nil single).symm, by simp, by simp, .nil⟩
  | @repeated d d' known known' v w name rest names found _ ih =>
    obtain ⟨vs, feeds, plans, rfl, rfl, among, paired⟩ := ih single
    refine ⟨vs, feeds, plans, rfl, rfl, fun v member => mem_cons_of_mem _ (among v member),
      .cons ⟨v, w, rfl, ?_, ?_⟩ paired⟩
    · exact mem_append_left _ (mem_of_find?_eq_some found)
    · simpa using find?_some found
  | @fresh d d' known known' v name copy array found g rest names _ named present made described
    noded _ ih =>
    obtain ⟨-, built⟩ := addNode_eq_ok.mp noded
    let feed : Feed := ⟨copy, array, .full name found, .full copy found⟩
    have fed : ({ d with graph := g } : Draft) = d.fed [] label nodes [feed] := by
      rw [built, Draft.withArray, single]
      rfl
    rw [fed] at ih
    have last : (d.fed [] label nodes [feed]).graph.states = [⟨label, nodes ++ [feed.node]⟩] := rfl
    obtain ⟨vs, feeds, plans, rfl, rfl, among, paired⟩ := ih (i := i + 1) last
    have away : name ≠ copy := by
      rintro rfl
      rw [made.free] at present
      cases present
    have source : d.graph.arrays.get? name = some found := by
      rwa [Graph.array?, Draft.withArray, Dict.get?_insert, if_neg away] at described
    refine ⟨v :: vs, feed :: feeds, .cons ⟨name, found, _, named, source, made.dense, made.proposed,
      rfl, rfl⟩ made.free plans, fed_cons feed feeds, ?_,
      forall_mem_cons.mpr ⟨mem_cons_self, fun v member => mem_cons_of_mem _ (among v member)⟩,
      .cons ⟨v, v, rfl, ?_, rfl⟩ paired⟩
    · simp [feed]
    · simp

structure Lambda.Plain (f : Lambda) : Prop where
  idle : ∀ e ∈ f.equations, e.outputs ≠ [] ∧ e.outputs.all Var.isDropped = true
  closed : f.constVars.length = f.consts.length
  named : ∀ atom ∈ f.outputs, ∃ v ∈ f.inputs ++ f.constVars, atom = .var v ∧ v.elem.isFloat = false
  few : ∀ v ∈ f.inputs ++ f.constVars, v.shape.prod * 24 < indexBound

inductive Lambda.Holds (f : Lambda) (args : List Argument) (v : Var) (values : List Datum) : Prop
  | input {i : Nat} {a : Argument} : f.inputs[i]? = some v → args[i]? = some a →
    a.elements = .ok values → Holds f args v values
  | constant {i : Nat} {t : Tensor} : f.constVars[i]? = some v → f.consts[i]? = some t →
    t.values = .ok values → Holds f args v values

-- An array with the elements of a variable.
def Lambda.Returns (f : Lambda) (args : List Argument) (v : Var) (result : Tensor) : Prop :=
  ∃ values, f.Holds args v values ∧ result.elem = v.elem ∧ result.shape = arrayShape v ∧
    result.values = .ok values

-- An array is filled from an argument or from a constant.
inductive Lambda.Fills (f : Lambda) (d : Draft) (v : Var) (name : String) (array : Descriptor) :
    Prop
  | input {i : Nat} : f.inputs[i]? = some v → d.inputs[i]? = some name →
    d.graph.constants.get? name = none → Fills f d v name array
  | constant {i : Nat} {t fixed : Tensor} : f.constVars[i]? = some v → f.consts[i]? = some t →
    Graph.fits array t = .ok true →
    t.reshape array.shape = .ok fixed → d.graph.constants.get? name = some fixed →
    Fills f d v name array

structure Lambda.Places (f : Lambda) (d : Draft) (v : Var) (name : String) (array : Descriptor) :
    Prop where
  named : d.nameOf? v = some name
  known : d.graph.arrays.get? name = some array
  dense : Descriptor.dense (arrayShape v) v.elem = .ok array
  fills : f.Fills d v name array

-- A draft with the arrays of constants and inputs, and nothing else.
structure Lambda.Entered (f : Lambda) (d : Draft) : Prop where
  machine : d.block = .single "initial_state" [] ∧ d.start = 0
  places : ∀ v ∈ f.inputs ++ f.constVars, ∃ name array, f.Places d v name array
  inputs : ∀ name ∈ d.inputs, ∃ v ∈ f.inputs, ∃ array, f.Places d v name array
  unbound : ∀ name ∈ d.inputs, d.graph.constants.get? name = none
  known : ∀ name, d.graph.constants.contains name = true → d.graph.arrays.contains name = true
  arrays : ∀ name, d.graph.arrays.contains name = true → name ∈ d.inputs ∨
    d.graph.constants.contains name = true ∧ ∃ rest, name = constantMark ++ rest
  asked : ∀ name ∈ d.inputs, "__return".isPrefixOf name = false ∨ ∃ v ∈ f.inputs,
    v.explicitName? = some name

theorem Builder.Creates.marked {before : String} {d' : Draft} {vs : List Var}
    (creates : Creates before d mapped vs names d') (member : name ∈ names) :
    ∃ rest, name = before ++ rest := by
  induction creates with
  | nil => cases member
  | cons _ made _ ih =>
    rcases mem_cons.mp member with rfl | later
    · exact ⟨_, made.proposed⟩
    · exact ih later

theorem binds_constants {mapped' : Nat} (constants : Constants f (Draft.new title) mapped d mapped')
    (closed : f.constVars.length = f.consts.length) :
    (d.block = .single "initial_state" [] ∧ d.start = 0) ∧ (∀ v ∈ f.constVars,
        ∃ (i : Nat) (t : Tensor) (name : String) (array : Descriptor) (fixed : Tensor),
        f.constVars[i]? = some v ∧ f.consts[i]? = some t ∧
        d.nameOf? v = some name ∧ d.graph.arrays.get? name = some array ∧ Descriptor.dense
          (arrayShape v) v.elem = .ok array ∧
        Graph.fits array t = .ok true ∧ t.reshape array.shape = .ok fixed ∧
        d.graph.constants.get? name = some fixed) ∧
      ∀ name, d.graph.arrays.contains name = true → d.graph.constants.contains name = true ∧ ∃ rest,
      name = constantMark ++ rest := by
  have machine := constants.machine_eq
  cases constants with
  | none empty =>
    rw [List.isEmpty_iff] at empty
    rw [empty, length_nil, length_eq_zero_iff] at closed
    exact ⟨⟨rfl, rfl⟩, by simp [closed], fun name present => by cases present⟩
  | @some names d' g _ creates bound =>
    have counted : names.length = f.consts.length := creates.length_eq.trans closed
    have keys : (names.zip f.consts).map Prod.fst = names := map_fst_zip (Nat.le_of_eq counted)
    obtain ⟨same, -, each⟩ := get?_bindAll bound (keys.symm ▸ creates.fresh.1)
    refine ⟨⟨congrArg Prod.fst machine, congrArg (·.2.1) machine⟩, fun v member => ?_,
      fun name present => ?_⟩
    · obtain ⟨i, listed⟩ := mem_iff_getElem?.mp member
      have found := getElem?_eq_getElem
        (closed ▸ (List.getElem?_eq_some_iff.mp listed).1 : i < f.consts.length)
      obtain ⟨name, array, named, mapped, known, made⟩ := creates.getElem? listed
      obtain ⟨array', fixed, known', fits, reshaped, fixes⟩ :=
        each name _ (mem_of_getElem? (getElem?_zip_eq_some.mpr ⟨named, found⟩))
      cases known.symm.trans known'
      exact ⟨i, _, name, array, fixed, listed, found, mapped, by rw [same]; exact known, made, fits,
        reshaped, fixes⟩
    · rw [same] at present
      rcases creates.contains_cases present with old | member
      · cases old
      · obtain ⟨i, named⟩ := mem_iff_getElem?.mp member
        have found := getElem?_eq_getElem
          (counted ▸ (List.getElem?_eq_some_iff.mp named).1 : i < f.consts.length)
        obtain ⟨_, fixed, -, -, -, fixes⟩ :=
          each name _ (mem_of_getElem? (getElem?_zip_eq_some.mpr ⟨named, found⟩))
        exact ⟨by rw [Dict.contains, fixes]; rfl, creates.marked member⟩

theorem Lambda.Plain.entered (plain : f.Plain) {d₁ d₂ : Draft} {mapped₁ : Nat} {ins : List String}
    (constants : Constants f (Draft.new title) mapped d₁ mapped₁) (creates : Creates "" d₁ mapped₁
      f.inputs ins d₂) : f.Entered { d₂ with inputs? := some ins } := by
  obtain ⟨⟨block, start⟩, binds, marked⟩ := binds_constants constants plain.closed
  have machine := creates.machine_eq
  have fixed : d₂.graph.constants = d₁.graph.constants := creates.constants_eq
  obtain ⟨-, new⟩ := creates.fresh
  have known (name : String) (bound : d₁.graph.constants.contains name =
    true) : d₁.graph.arrays.contains name = true :=
    ((Draft.Sound.new title).tidy.constants_of constants).constants name bound
  have unbound (name : String) (member : name ∈ ins) : d₂.graph.constants.get? name = none :=
    fixed ▸ Dict.get?_eq_none_of_absent (known name) (new name member)
  have input {i : Nat} {v : Var} (listed : f.inputs[i]? = some v) :
      ∃ name array, ins[i]? = some name ∧
      f.Places { d₂ with inputs? := some ins } v name array := by
    obtain ⟨name, array, named, mapped, present, made⟩ := creates.getElem? listed
    exact ⟨name, array, named, mapped, present, made,
      .input listed named (unbound name (mem_of_getElem? named))⟩
  refine ⟨⟨(congrArg Prod.fst machine).trans block, (congrArg (·.2.1) machine).trans start⟩,
    fun v member => ?_, fun name member => ?_, unbound,
    fun name bound => ?_, fun name present => ?_, fun name member => ?_⟩
  · rcases mem_append.mp member with listed | listed
    · obtain ⟨i, listed⟩ := mem_iff_getElem?.mp listed
      obtain ⟨name, array, -, places⟩ := input listed
      exact ⟨name, array, places⟩
    · obtain ⟨i, t, name, array, value, listed, found, mapped, present, made, fits, reshaped,
        fixes⟩ := binds v listed
      exact ⟨name, array, creates.nameOf?_older mapped, creates.get?_older present, made,
        .constant listed found fits reshaped (fixed ▸ fixes)⟩
  · obtain ⟨i, found⟩ := mem_iff_getElem?.mp member
    have inside : i < f.inputs.length := creates.length_eq ▸ (List.getElem?_eq_some_iff.mp found).1
    obtain ⟨name', array, found', places⟩ := input (getElem?_eq_getElem inside)
    cases found.symm.trans found'
    exact ⟨_, getElem_mem inside, array, places⟩
  · exact Dict.Keeps.contains (fun _ _ => creates.get?_older) (known name (fixed ▸ bound))
  · rcases creates.contains_cases present with old | member
    · exact .inr (fixed ▸ marked name old)
    · exact .inl member
  · rcases creates.name_cases member with ⟨k, rfl⟩ | asks
    · exact .inl (Naming.inner_fresh k).not_return
    · exact .inr asks

-- The draft of the function: a copy for each variable that is returned.
structure Mirroring (f : Lambda) (base : Draft) (vs : List Var) (feeds : List Feed) (d : Draft) :
    Prop where
  plain : f.Plain
  lowers : ∃ fuel, Lowers fuel f d
  enters : f.Entered base
  plans : Feed.Plans base.Mirrors 0 base.graph.arrays vs feeds
  among : ∀ v ∈ vs, .var v ∈ f.outputs
  outputs : List.Forall₂ (fun atom name => ∃ v w, atom = .var v ∧
    (w, name) ∈ vs.zip (feeds.map Feed.array) ∧ w.id = v.id) f.outputs d.outputs
  draft : ∃ names outputs?, d = { base.fed [] "initial_state" [] feeds with names, outputs? }

theorem Lambda.Plain.mirroring (plain : f.Plain) {fuel : Nat} (lowers : Lowers fuel f d) :
    ∃ base vs feeds, Mirroring f base vs feeds d := by
  obtain ⟨title, mapped, outs, body, lowered, same⟩ := id lowers
  have idle (e : Equation) (member : e ∈ f.equations) : e.outputs.any Var.isDropped = true := by
    obtain ⟨some, all⟩ := plain.idle e member
    obtain ⟨v, rest, same⟩ := exists_cons_of_ne_nil some
    rw [same, all_cons, Bool.and_eq_true] at all
    rw [same, any_cons, all.1, Bool.true_or]
  cases lowered with
  | equations _ _ all _ => exact absurd (all.idle idle).1 (Nat.succ_ne_zero _)
  | @aliases d₁ d₂ d₃ d _ _ _ ins _ _ names constants creates all _ aliases _ =>
    obtain ⟨-, rfl⟩ := all.idle idle
    have entered := plain.entered constants creates
    obtain ⟨block, start⟩ := entered.machine
    obtain ⟨vs, feeds, plans, rfl, rfl, among, paired⟩ :=
      aliases.plans (i := 0) start (congrArg Block.states block)
    simp only [nil_append] at paired
    exact ⟨_, vs, feeds, plain, ⟨fuel, lowers⟩, entered, plans,
      among, by rw [same]; exact paired, names, _, same⟩

structure Lambda.Copied (f : Lambda) (base : Draft) (v : Var) (name : String) (array : Descriptor)
    (feed : Feed) : Prop extends f.Places base v name array where
  member : v ∈ f.inputs ++ f.constVars
  whole : v.elem.isFloat = false
  feed : feed = ⟨feed.array, array, .full name array, .full feed.array array⟩

namespace Mirroring

variable {f : Lambda} {base d : Draft} {vs : List Var} {feeds : List Feed}
  (mirroring : Mirroring f base vs feeds d) {array : Descriptor} {feed : Feed}

include mirroring

theorem graph_eq : d.graph = (base.fed [] "initial_state" [] feeds).graph := by
  obtain ⟨names, outs, rfl⟩ := mirroring.draft
  rfl

theorem inputs_eq : d.inputs = base.inputs := by
  obtain ⟨names, outs, rfl⟩ := mirroring.draft
  rfl

theorem constants_eq : d.graph.constants = base.graph.constants := by
  rw [mirroring.graph_eq]
  rfl

theorem arrays_eq : d.graph.arrays = Feed.declared feeds base.graph.arrays := by
  rw [mirroring.graph_eq]
  rfl

theorem get?_base (known : base.graph.arrays.get? name = some array) :
    d.graph.arrays.get? name = some array := by
  rw [mirroring.arrays_eq]
  exact (mirroring.plans.keeps (by rw [Dict.contains, known]; rfl)).trans known

theorem sound : d.Sound := by
  obtain ⟨fuel, lowers⟩ := mirroring.lowers
  exact lowers.sound

theorem copy_at {i : Nat} {v : Var} (listed : vs[i]? = some v) (found : feeds[i]? = some feed) :
    ∃ name array, f.Copied base v name array feed ∧ ∃ rest, feed.array = aliasMark ++ rest := by
  obtain ⟨w, member, same, whole⟩ :=
    mirroring.plain.named _ (mirroring.among v (mem_of_getElem? listed))
  cases same
  obtain ⟨name, array, places⟩ := mirroring.enters.places v member
  obtain ⟨feed', between, found', ⟨name', array', rest, named, known, made, marked, source, target⟩,
    keeps⟩ := mirroring.plans.getElem? listed
  cases found.symm.trans found'
  cases places.named.symm.trans named
  rw [keeps name (by rw [Dict.contains, places.known]; rfl)] at known
  cases places.known.symm.trans known
  refine ⟨name, array, ⟨places, member, whole, ?_⟩, rest, marked⟩
  obtain ⟨copy, outer, reads, writes⟩ := feed
  obtain rfl : array = outer := Except.ok.inj (places.dense.symm.trans made)
  obtain rfl : reads = .full name array := source
  obtain rfl : writes = .full copy array := target
  rfl

theorem copies (member : feed ∈ feeds) : ∃ v name array, f.Copied base v name array feed ∧ ∃ rest,
    feed.array = aliasMark ++ rest := by
  obtain ⟨i, found⟩ := mem_iff_getElem?.mp member
  have listed := getElem?_eq_getElem (mirroring.plans.length_eq ▸
    (List.getElem?_eq_some_iff.mp found).1 : i < vs.length)
  exact ⟨_, mirroring.copy_at listed found⟩

theorem returned : List.Forall₂
    (fun atom out => ∃ v name array, ∃ feed ∈ feeds, atom = .var v ∧ feed.array = out ∧
      f.Copied base v name array feed) f.outputs d.outputs := by
  refine (forall₂_and_left (p := (· ∈ f.outputs)) f.outputs d.outputs |>.mpr
    ⟨fun _ member => member, mirroring.outputs⟩).imp ?_
  rintro atom out ⟨output, v, w, rfl, paired, same⟩
  obtain ⟨v', member, same', whole⟩ := mirroring.plain.named _ output
  cases same'
  obtain ⟨name, array, places⟩ := mirroring.enters.places v member
  obtain ⟨i, found⟩ := mem_iff_getElem?.mp paired
  obtain ⟨listed, copied⟩ := getElem?_zip_eq_some.mp found
  rw [getElem?_map, Option.map_eq_some_iff] at copied
  obtain ⟨feed, copied, rfl⟩ := copied
  obtain ⟨name', array', copy, -⟩ := mirroring.copy_at listed copied
  have named := copy.named
  rw [Draft.nameOf?, same, ← Draft.nameOf?, places.named] at named
  cases named
  cases places.known.symm.trans copy.known
  exact ⟨v, name, array, feed, mem_of_getElem? copied, rfl, rfl, places, member, whole, copy.feed⟩

theorem row : d.Row ⟨"initial_state", feeds.map Feed.node⟩ [] := by
  obtain ⟨names, outs, rfl⟩ := mirroring.draft
  obtain ⟨block, start⟩ := mirroring.enters.machine
  refine ⟨?_, start⟩
  have edges : base.graph.edges = [] := congrArg Block.edges block
  have terminal : base.terminal = 0 := congrArg Block.terminal block
  change (⟨_, base.graph.edges, base.terminal⟩ : Block) = _
  rw [edges, terminal]
  rfl

theorem target_eq (member : feed ∈ feeds) : feed.target.array = feed.array := by
  obtain ⟨_, _, _, copy, -⟩ := mirroring.copies member
  rw [copy.feed]
  rfl

theorem separate : Feed.Separate feeds := by
  obtain ⟨distinct, new⟩ := mirroring.plans.fresh
  refine ⟨map_congr_left (fun _ => mirroring.target_eq) ▸ distinct,
    fun feed member other member' same => ?_⟩
  obtain ⟨v, name, array, copy, -⟩ := mirroring.copies member
  have old : base.graph.arrays.contains feed.source.array = true := by
    rw [copy.feed, Dict.contains]
    exact Option.isSome_iff_exists.mpr ⟨array, copy.known⟩
  rw [same, mirroring.target_eq member', new other member'] at old
  cases old

theorem array_cases (known : d.graph.arrays.get? name = some array) :
    (∃ feed ∈ feeds, feed.array = name ∧ feed.outer = array) ∨
    base.graph.arrays.get? name = some array ∧
      (name ∈ base.inputs ∨ base.graph.constants.contains name = true ∧ ∃ rest,
        name = constantMark ++ rest) := by
  rw [mirroring.arrays_eq] at known
  by_cases copy : name ∈ feeds.map Feed.array
  · obtain ⟨feed, member, rfl⟩ := mem_map.mp copy
    rw [mirroring.plans.get?_declared member] at known
    exact .inl ⟨feed, member, rfl, Option.some.inj known⟩
  · rw [Feed.get?_declared_other copy] at known
    exact .inr ⟨known, mirroring.enters.arrays name (by rw [Dict.contains, known]; rfl)⟩

theorem not_return (unreserved : ∀ v ∈ f.inputs, ∀ name, v.explicitName? = some name →
    "__return".isPrefixOf name = false)
    (known : d.graph.arrays.get? name = some array) : "__return".isPrefixOf name = false := by
  obtain ⟨feed, member, rfl, -⟩ | ⟨-, input | ⟨-, rest, rfl⟩⟩ := mirroring.array_cases known
  · obtain ⟨_, _, _, -, rest, marked⟩ := mirroring.copies member
    rw [marked]
    exact Naming.not_return_append (by decide) rest
  · rcases mirroring.enters.asked name input with free | ⟨v, member, asks⟩
    · exact free
    · exact unreserved v member name asks
  · exact Naming.not_return_append (by decide) rest

section

variable {specs : List ArgSpec} {ins outs : List Feed} (stages : d.Stages specs ins outs)

include stages

theorem listable {v : Var} (member : v ∈ f.inputs ++ f.constVars)
    (places : f.Places base v name array) : Shape.Listable array.shape := by
  obtain ⟨shape, -⟩ := Descriptor.dense_eq_ok places.dense
  suffices counted : ∃ count, sizeProduct array.shape = .ok count by
    obtain ⟨count, counted⟩ := counted
    refine ⟨count, counted, ?_⟩
    rw [eq_prod_of_sizeProduct counted, shape, prod_arrayShape]
    exact mirroring.plain.few v member
  cases places.fills with
  | @input i _ entered _ =>
    rw [← mirroring.inputs_eq] at entered
    have inside : i < specs.length := stages.counted ▸ (List.getElem?_eq_some_iff.mp entered).1
    obtain ⟨inner, outer, found, planned, -⟩ :=
      stages.enters_at entered (getElem?_eq_getElem inside) mirroring.sound
    cases found.symm.trans (mirroring.get?_base places.known)
    obtain ⟨-, -, counted⟩ := inputArray_eq_ok planned
    exact counted
  | constant _ _ _ reshaped _ =>
    obtain ⟨count, counted, -⟩ := bind_eq_ok.mp reshaped
    exact ⟨count, counted⟩

theorem roomy : d.Roomy := by
  refine ⟨fun name array known unbound => ?_, fun name member => ?_⟩
  · obtain ⟨feed, member, rfl, rfl⟩ | ⟨known, input | ⟨bound, -⟩⟩ := mirroring.array_cases known
    · obtain ⟨v, name, array, copy, -⟩ := mirroring.copies member
      rw [copy.feed]
      exact mirroring.listable stages copy.member copy.toPlaces
    · obtain ⟨v, listed, array', places⟩ := mirroring.enters.inputs name input
      cases known.symm.trans places.known
      exact mirroring.listable stages (mem_append_left _ listed) places
    · rw [Dict.contains, ← mirroring.constants_eq, unbound] at bound
      cases bound
  · rw [mirroring.constants_eq]
    rcases mem_append.mp member with input | output
    · exact mirroring.enters.unbound name (mirroring.inputs_eq ▸ input)
    · obtain ⟨atom, -, v, _, _, feed, listed, -, rfl, -⟩ :=
        Outcome.forall₂_right mirroring.returned output
      exact Dict.get?_eq_none_of_absent (mirroring.enters.known _)
        (mirroring.plans.fresh.2 _ listed)

theorem between (checked : (d.routine ins outs).check = .ok ()) : d.Between specs ins outs
    [Feed.effect feeds] := by
  obtain ⟨fuel, lowers⟩ := mirroring.lowers
  have made : d.toRoutine specs true = .ok _ :=
    toRoutine_iff.mpr ⟨ins, outs, stages, rfl, fun _ => checked⟩
  refine .of_row stages mirroring.sound (mirroring.roomy stages) checked
    (toRoutine_everywhere lowers made).here.2 mirroring.row ?_
  simp [Program.compileState, Feed.compileNodes_feeds]

variable {args : List Argument} {given memory after : Memory}
  (fed : Draft.Stages.Entered d ins outs args given memory after)
  (counted : args.length = f.inputs.length) {v : Var} {name : String} {array : Descriptor}

include fed counted

theorem holds (member : v ∈ f.inputs ++ f.constVars) (whole : v.elem.isFloat = false)
    (places : f.Places base v name array) :
    ∃ values, f.Holds args v values ∧ HoldsOperand after name v values := by
  have sound := mirroring.sound
  have known := mirroring.get?_base places.known
  obtain ⟨shape, elem, -, -⟩ := Descriptor.dense_eq_ok places.dense
  cases places.fills with
  | @input i listed entered unbound =>
    have argument := getElem?_eq_getElem
      (counted.symm ▸ (List.getElem?_eq_some_iff.mp listed).1 : i < args.length)
    obtain ⟨values, elements, holds⟩ := fed.holds_input stages sound (mirroring.inputs_eq ▸ entered)
      argument ⟨known, mirroring.constants_eq ▸ unbound⟩ elem
      shape whole
    exact ⟨values, .input listed argument elements, holds⟩
  | @constant i t fixed listed given fits reshaped bound =>
    obtain ⟨values, count, read, dense, holds⟩ :=
      Tensor.values_reshape reshaped
        (by rw [shape, prod_arrayShape]; exact mirroring.plain.few v member)
    obtain ⟨typed, shaped⟩ := Tensor.reshaped reshaped
    have same : t.elem = array.elem := by
      unfold Graph.fits at fits
      split at fits
      next same => exact same.symm
      next => cases fits
    have other : name ∉ d.inputs := fun input => by
      rw [mirroring.enters.unbound name (mirroring.inputs_eq ▸ input)] at bound
      cases bound
    have found : after.get? name = some fixed := by
      rw [fed.get?_other stages sound other]
      obtain ⟨t, made, found⟩ := fed.get?_allocated sound (stages.get?_routine known)
      rw [initial, show (d.routine ins outs).graph.constants.get? name =
        some fixed from mirroring.constants_eq ▸ bound] at made
      cases made
      exact found
    refine ⟨values, .constant listed given read, count, fixed, found, dense,
      (typed.trans same).trans elem, shaped.trans shape, ?_⟩
    rw [holds, Tensor.map_recode_values (same ▸ elem ▸ ElemType.readsBack whole) read]

theorem copied (listed : feed ∈ feeds) (copy : f.Copied base v name array feed) :
    ∃ t u w count, after.get? feed.source.array = some t ∧ after.get? feed.target.array = some u ∧
      Effect.copied feed.source feed.target {} t u = .ok w ∧ w.Dense count ∧
      f.Returns args v w := by
  have sound := mirroring.sound
  obtain ⟨values, held, _, t, found, -, typed, shaped, read⟩ :=
    mirroring.holds stages fed counted copy.member copy.whole copy.toPlaces
  obtain ⟨shape, elem, strides, -⟩ := Descriptor.dense_eq_ok copy.dense
  have new := mirroring.plans.fresh.2 _ listed
  have declares : d.Declares feed.array array := by
    refine ⟨?_, mirroring.constants_eq ▸ Dict.get?_eq_none_of_absent
      (mirroring.enters.known feed.array) new⟩
    rw [mirroring.arrays_eq, mirroring.plans.get?_declared listed, copy.feed]
  have other : feed.array ∉ d.inputs := fun input => by
    obtain ⟨_, -, _, places⟩ := mirroring.enters.inputs _ (mirroring.inputs_eq ▸ input)
    rw [Dict.contains, places.known] at new
    cases new
  obtain ⟨count, sized, few⟩ := mirroring.listable stages copy.member copy.toPlaces
  obtain ⟨u, made, found'⟩ := fed.get?_memory stages sound declares
  rw [← fed.get?_other stages sound other] at found'
  obtain ⟨w, copied, dense, typed', shaped', holds⟩ :=
    (Effect.copied_blank (shape ▸ strides) sized few made (shaped.trans shape.symm) rfl).2 values
      read
  rw [elem, ← typed, Tensor.map_recode_values (typed ▸ ElemType.readsBack copy.whole) read] at holds
  rw [copy.feed]
  exact ⟨t, u, w, count, found, found', copied, dense, values, held, typed'.trans elem,
    shaped'.trans shape, holds⟩

end

end Mirroring

theorem Lambda.evaluate_plain {f : Lambda} (plain : f.Plain) {specs : List ArgSpec} {d : Draft}
    {r : Routine} (lowered : (lower .builtin f none (.new 0)).1 = .ok d)
    (staged : d.toRoutine specs true = .ok r) :
    (∀ name ∈ d.outputs, name ∉ d.inputs) ∧ (∀ name ∈ r.outputs, name ∉ r.inputs) ∧
      ((∀ v ∈ f.inputs, ∀ name, v.explicitName? = some name → "__return".isPrefixOf name = false) →
        (Executable.ofRoutine r .cpu).Succeeds) ∧
      ∀ x, Executable.ofRoutine r .cpu = .ok x → ∀ args : List Argument,
        (∀ a ∈ args, a.elements.Succeeds) →
        (describeCall args = .ok specs → List.Forall₂ ArgSpec.Declares specs f.inputs →
          (∀ a ∈ args, a.Regular) → (x.accept args).Succeeds) ∧
        ((x.accept args).Succeeds → ∀ options, ∃ results,
          f.evaluate specs options args = .ok results ∧
          List.Forall₂ (fun atom result => ∃ v, atom = .var v ∧ f.Returns args v result) f.outputs
            results) := by
  have lowers := lowers_of_gives (gives_of_ends lowered)
  obtain ⟨ins, outs, stages, rfl, checked⟩ := toRoutine_iff.mp staged
  obtain ⟨base, vs, feeds, mirroring⟩ := plain.mirroring lowers
  have between := mirroring.between stages (checked rfl)
  refine ⟨stages.apart, fun name output input => (nodup_append.mp stages.nodup_args).2.2 name input
    name output rfl,
    fun unreserved => between.exists_executable fun name array known => mirroring.not_return
      unreserved known, ?_⟩
  intro x executable args elements
  refine ⟨fun described declares regular => between.accept executable lowers declares described
    regular elements, ?_⟩
  rintro ⟨given, accepted⟩ options
  obtain ⟨memory, after, fed, -, succeeds⟩ := between.call executable accepted elements
  have counted : args.length = f.inputs.length := by
    obtain ⟨-, -, -, program, -, rfl⟩ := Executable.ofRoutine_eq_ok.mp executable
    calc args.length = (ins.map Feed.array).length :=
          (Executable.Accepted.of_accept accepted).counted
      _ = d.inputs.length := by rw [length_map, stages.length_feeds]
      _ = f.inputs.length := lowers.length_inputs
  obtain ⟨done, ran, others, each⟩ :=
    Feed.exists_effect mirroring.separate after {} (fun feed w => ∃ t u,
      after.get? feed.source.array = some t ∧
      after.get? feed.target.array = some u ∧ Effect.copied feed.source feed.target {} t u = .ok w)
        fun feed member => by
    obtain ⟨v, name, array, copy, -⟩ := mirroring.copies member
    obtain ⟨t, u, w, _, reads, writes, copied, -⟩ := mirroring.copied stages fed counted member copy
    exact ⟨t, u, w, reads, writes, copied, t, u, reads, writes, copied⟩
  have left : List.Forall₂ (fun atom out => ∃ v w count array, atom = .var v ∧
    v.elem.isFloat = false ∧ d.graph.arrays.get? out = some array ∧
      Descriptor.dense (arrayShape v) v.elem = .ok array ∧ done.get? out = some w ∧ w.Dense count ∧
      f.Returns args v w) f.outputs d.outputs := by
    refine mirroring.returned.imp ?_
    rintro _ out ⟨v, name, array, feed, listed, rfl, rfl, copy⟩
    obtain ⟨t, u, w, count, reads, writes, copied, dense, returns⟩ :=
      mirroring.copied stages fed counted listed copy
    obtain ⟨w', found, t', u', reads', writes', copied'⟩ := each _ listed
    cases reads.symm.trans reads'
    cases writes.symm.trans writes'
    cases copied.symm.trans copied'
    refine ⟨v, w, count, array, rfl, copy.whole, ?_, copy.dense, mirroring.target_eq listed ▸ found,
      dense, returns⟩
    rw [mirroring.arrays_eq, mirroring.plans.get?_declared listed, copy.feed]
  obtain ⟨results, called, copies⟩ := succeeds done (by rw [foldlM_cons, ran]; rfl)
    (fun name absent => others name fun feed member same => by
      rw [mirroring.target_eq member] at same
      rw [← same, Dict.contains, mirroring.arrays_eq,
        mirroring.plans.get?_declared member] at absent
      cases absent)
    (fun name member array known => by
      obtain ⟨_, -, v, w, count, array', -, -, known', made, found, dense, _, -, elem, shape, -⟩ :=
        Outcome.forall₂_right left member
      cases known.symm.trans known'
      obtain ⟨shape', elem', -⟩ := Descriptor.dense_eq_ok made
      exact ⟨w, count, found, dense, elem.trans elem'.symm, shape.trans shape'.symm⟩)
  refine ⟨results, (between.evaluate_eq executable lowered options args).trans called,
    (Outcome.forall₂_comp.mpr ⟨_, left, copies⟩).imp ?_⟩
  rintro _ result ⟨out, ⟨v, w, _, _, rfl, whole, -, -, found, -, values, held, elem, shape, read⟩,
    w', values', found', read', elem', shape', holds⟩
  cases found.symm.trans found'
  cases read.symm.trans read'
  refine ⟨v, rfl, values, held, elem'.trans elem, shape'.trans shape, ?_⟩
  rw [holds, Tensor.map_recode_values (elem ▸ ElemType.readsBack whole) read]

-- Returns a constant, its input and the constant again; the negative of the input is not needed.
def Lambda.recalling : Lambda :=
  let x : Var := ⟨0, .traced, [], .int8⟩
  let c : Var := ⟨1, .traced, [2], .uint8⟩
  ⟨[x], [c], [⟨.uint8, [2], [1], .cpuHeap, #[255, 7]⟩], [],
    [⟨"neg", [.var x], [⟨2, .dropped, [], .int8⟩], {}, false⟩], [.var c, .var x, .var c]⟩

theorem Lambda.evaluate_plain_recalling :
    let args : List Argument := [.scalar ⟨.int8, .int 5⟩]
    let specs : List ArgSpec := [⟨[], .int8, none, .cpuHeap⟩]
    recalling.Plain ∧ ∃ first second third, recalling.evaluate specs (.all true) args = .ok [first,
      second, third] ∧
      first.values = .ok [.uint 255, .uint 7] ∧ second.shape = [1] ∧ second.values = .ok [.int 5] ∧
      third.values = .ok [.uint 255, .uint 7] := by
  intro args specs
  have plain : recalling.Plain := by
    refine ⟨by decide, rfl, ?_, by decide⟩
    simp [recalling, ElemType.isFloat]
  have element : Argument.elements (.scalar ⟨.int8, .int 5⟩) = .ok [.int 5] := by
    obtain ⟨t, made, -, -, values⟩ := Tensor.exists_ofScalar ⟨.int8, .int 5⟩
    change (Tensor.ofScalar ⟨.int8, .int 5⟩).bind Tensor.values = _
    rw [made]
    exact values.trans (by rw [ElemType.recode_eq_cast rfl]; rfl)
  have constant : Tensor.values ⟨.uint8, [2], [1], .cpuHeap, #[255, 7]⟩ = .ok [.uint 255,
    .uint 7] := by
    have dense : Tensor.Dense ⟨.uint8, [2], [1], .cpuHeap, #[255, 7]⟩ 2 :=
      ⟨⟨rfl, by decide⟩, rfl, rfl⟩
    refine dense.values_eq_ok.mpr ⟨rfl, fun i d listed => ?_⟩
    rcases i with _ | _ | i <;> cases listed <;> rfl
  -- What the two variables hold.
  have input {values : List Datum} (held : recalling.Holds args ⟨0, .traced, [], .int8⟩ values) :
    values = [.int 5] := by
    rcases held with ⟨listed, given, known⟩ | @⟨i, _, listed, -, -⟩
    · rename_i i a
      rcases i with _ | i <;> cases given
      exact Except.ok.inj (known.symm.trans element)
    · rcases i with _ | i <;> cases listed
  have fixed {values : List Datum} (held : recalling.Holds args ⟨1, .traced, [2], .uint8⟩ values) :
    values = [.uint 255, .uint 7] := by
    rcases held with @⟨i, _, listed, -, -⟩ | ⟨listed, given, known⟩
    · rcases i with _ | i <;> cases listed
    · rename_i i t
      rcases i with _ | i <;> cases given
      exact Except.ok.inj (known.symm.trans constant)
  have staged : Outcome.Succeeds (do
      let d ← (lower .builtin recalling none (.new 0)).1
      d.toRoutine specs true) := by decide +kernel
  obtain ⟨r, made⟩ := staged
  obtain ⟨d, lowered, made⟩ := bind_eq_ok.mp made
  obtain ⟨-, -, compiles, calls⟩ := evaluate_plain plain lowered made
  obtain ⟨x, executable⟩ := compiles (by decide)
  obtain ⟨accepts, calls⟩ := calls x executable args (by simpa [args] using ⟨_, element⟩)
  obtain ⟨results, evaluated, each⟩ :=
    calls (accepts rfl (.cons ⟨rfl, rfl⟩ .nil) (by simp [args, Argument.Regular])) (.all true)
  obtain _ | ⟨⟨_, ⟨⟩, _, held, -, -, first⟩, _ | ⟨⟨_, ⟨⟩, _, held', -, shape, second⟩,
    _ | ⟨⟨_, ⟨⟩, _, held'', -, -, third⟩, ⟨⟩⟩⟩⟩ := each
  exact ⟨plain, _, _, _, evaluated, fixed held ▸ first, shape, input held' ▸ second,
    fixed held'' ▸ third⟩

end TraceFlow
