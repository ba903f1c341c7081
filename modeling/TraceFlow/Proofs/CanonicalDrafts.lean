import TraceFlow.Proofs.LoweredNodes

set_option autoImplicit false

namespace TraceFlow

open Builder Lowering List

variable {mapped mapped' i fuel : Nat} {d d' : Draft} {name before pattern label : String}
  {vs : List Var} {f : Lambda} {equations : List Equation}
  {array : Descriptor} {g g' : Graph} {lower : Lambda → Option String → LowerM Draft}
    {inputs outputs : List String}

def Edge.Parts (edges : List Edge) : Prop :=
  (∃ e, edges = [e] ∧ e.guard? = none) ∨
    ∃ lhs, (∀ e ∈ edges, ∃ rhs, e.guard? = some ⟨lhs, rhs⟩) ∧ edges.Pairwise fun e later =>
    e.guard? ≠ later.guard?

namespace Draft

structure Canonical (d : Draft) : Prop where
  start : d.graph.start = d.start
  unentered : d.graph.inEdges d.start = []
  acyclic : d.graph.Acyclic
  connected : d.graph.Connected
  sinks : d.graph.sinks = [d.terminal]
  parts : ∀ id < d.graph.states.length, id ≠ d.terminal → Edge.Parts (d.graph.outEdges id)
  transient : ∀ name array, d.graph.arrays.get? name = some array → array.transient = true
  args : d.graph.args = []
  constants : ∀ name, d.graph.constants.contains name = true → d.graph.arrays.contains name = true
  ids : (d.names.map Prod.fst).Nodup
  injective : (d.names.map Prod.snd).Nodup
  known : ∀ entry ∈ d.names, d.graph.arrays.contains entry.2 = true

end Draft

theorem Edge.parts_of_excludes {edges : List Edge} (some : edges ≠ [])
    (exclusive : edges.Pairwise fun e later => e.Excludes later) : Edge.Parts edges := by
  rcases edges with _ | ⟨e, _ | ⟨next, rest⟩⟩
  · exact absurd rfl some
  · cases guarded : e.guard? with
    | none => exact .inl ⟨e, rfl, guarded⟩
    | some guard =>
      exact .inr ⟨guard.lhs, by simpa [guarded] using ⟨guard.rhs, rfl⟩, pairwise_singleton _ _⟩
  · -- With a second edge there, the first one is guarded and fixes the operand of all.
    obtain ⟨first, -⟩ := pairwise_cons.1 exclusive
    obtain ⟨lhs, rhs, _, here, -, -⟩ := first next mem_cons_self
    refine .inr ⟨lhs, ?_, exclusive.imp ?_⟩
    · intro other member
      rcases mem_cons.1 member with rfl | later
      · exact ⟨rhs, here⟩
      · obtain ⟨lhs', _, rhs', here', there, -⟩ := first other later
        rw [here] at here'
        cases here'
        exact ⟨rhs', there⟩
    · rintro left right ⟨_, _, _, one, two, differ⟩ same
      rw [one, two] at same
      cases same
      exact differ rfl

theorem Tensor.reshaped {t u : Tensor} {shape : List Nat} (made : t.reshape shape = .ok u) :
    u.elem = t.elem ∧ u.shape = shape := by
  obtain ⟨values, v, -, stored, rfl⟩ := reshape_eq_ok.mp made
  obtain ⟨elem, shape, -⟩ := ofValues_laidOut stored
  exact ⟨elem, shape⟩

-- Declarations that fit together: every array has an axis, and every constant an array of its type
-- and shape.
structure Graph.Furnished (g : Graph) : Prop where
  sorted : g.arrays.Sorted
  ranked : ∀ name array, g.arrays.get? name = some array → array.shape ≠ []
  constants : ∀ name value, g.constants.get? name = some value →
    ∃ array, g.arrays.get? name = some array ∧ value.elem = array.elem ∧ value.shape = array.shape

namespace Graph.Furnished

theorem new (title : String) : (Graph.new title).Furnished := by
  refine ⟨Dict.sorted_empty, ?_, ?_⟩
  · rintro name array ⟨⟩
  · rintro name value ⟨⟩

theorem congr (furnished : g.Furnished) (arrays : g'.arrays = g.arrays)
    (constants : g'.constants = g.constants) : g'.Furnished :=
  ⟨arrays ▸ furnished.sorted, arrays ▸ furnished.ranked, arrays ▸ constants ▸ furnished.constants⟩

theorem withArray (furnished : g.Furnished) (free : g.arrays.contains name = false)
    (ranked : array.shape ≠ []) :
    ({ g with arrays := g.arrays.insert name array } : Graph).Furnished := by
  refine ⟨Dict.sorted_insert furnished.sorted name array, fun other found known => ?_,
    fun other value bound => ?_⟩
  · rw [Dict.get?_insert] at known
    split at known
    · cases known
      exact ranked
    · exact furnished.ranked other found known
  · obtain ⟨found, known, typed⟩ := furnished.constants other value bound
    refine ⟨found, ?_, typed⟩
    have away : other ≠ name := by
      rintro rfl
      rw [Dict.contains, known] at free
      cases free
    rw [Dict.get?_insert, if_neg away, known]

theorem withConstant (furnished : g.Furnished) {value : Tensor}
    (known : g.arrays.get? name = some array) (elem : value.elem = array.elem)
    (shape : value.shape = array.shape) :
    ({ g with constants := g.constants.insert name value } : Graph).Furnished := by
  refine ⟨furnished.sorted, furnished.ranked, fun other found bound => ?_⟩
  rw [Dict.get?_insert] at bound
  split at bound
  next same =>
    cases bound
    exact ⟨array, same ▸ known, elem, shape⟩
  · exact furnished.constants other found bound

end Graph.Furnished

structure Graph.Own (g : Graph) : Prop extends g.Furnished where
  dense : ∀ name array, g.arrays.get? name = some array → ∃ shape elem,
    Descriptor.dense shape elem = .ok array
  args : g.args = []

namespace Graph.Own

theorem new (title : String) : (Graph.new title).Own :=
  ⟨.new title, by rintro name array ⟨⟩, rfl⟩

theorem congr (own : g.Own) (arrays : g'.arrays = g.arrays) (constants : g'.constants = g.constants)
    (args : g'.args = g.args) : g'.Own :=
  ⟨own.toFurnished.congr arrays constants, arrays ▸ own.dense, args.trans own.args⟩

theorem withArray (own : g.Own) (free : g.arrays.contains name = false) {shape : List Nat}
    {elem : ElemType} (dense : Descriptor.dense shape elem = .ok array) (ranked : shape ≠ []) :
    ({ g with arrays := g.arrays.insert name array } : Graph).Own := by
  refine ⟨own.toFurnished.withArray free ((Descriptor.dense_eq_ok dense).1 ▸ ranked),
    fun other found known => ?_, own.args⟩
  rw [Dict.get?_insert] at known
  split at known
  · cases known
    exact ⟨shape, elem, dense⟩
  · exact own.dense other found known

theorem newArray {v : Var} (own : d.graph.Own) (made : NewArray d mapped v before name array) :
    (d.withArray name array).graph.Own := by
  refine own.withArray made.free made.dense ?_
  rw [arrayShape]
  split
  · exact cons_ne_nil _ _
  next some => simpa using some

theorem bindAll {pairs : List (String × Tensor)} (bound : TraceFlow.bindAll g pairs = .ok g')
    (own : g.Own) : g'.Own := by
  induction pairs generalizing g with
  | nil =>
    cases bound
    exact own
  | cons pair rest ih =>
    obtain ⟨g₁, first, others⟩ := bind_eq_ok.mp bound
    obtain ⟨array, fixed, known, fits, reshaped, rfl⟩ := bindConstant_eq_ok first
    obtain ⟨elem, shape⟩ := Tensor.reshaped reshaped
    refine ih others ⟨own.toFurnished.withConstant known ?_ shape, own.dense, own.args⟩
    unfold Graph.fits at fits
    split at fits
    next same => exact elem.trans same.symm
    next => cases fits

theorem promotes {pairs : List (Option String × Atom)}
    (promotes : Promotes pattern i pairs g inputs g') (own : g.Own) : g'.Own := by
  induction promotes with
  | nil => exact own
  | array _ ih => exact ih own
  | @literal i s value _ g _ _ _ stored added _ ih =>
    apply ih
    obtain ⟨array, dense, free, rfl⟩ := addConstant_eq_ok.mp added
    obtain ⟨shape, elem, -, -⟩ := Descriptor.dense_eq_ok dense
    obtain ⟨t, made, single, -⟩ := Tensor.exists_ofScalar s
    cases stored.symm.trans made
    have grown := own.withArray free dense (by rw [single]; exact cons_ne_nil _ _)
    exact ⟨grown.toFurnished.withConstant ((Dict.get?_insert ..).trans (if_pos rfl)) elem.symm
      shape.symm, grown.dense, grown.args⟩

theorem fills {names : List (Option String)} {e : Equation} {block : Block}
    (fills : Fills lower names outputs e label g g' block) (own : g.Own) : g'.Own := by
  cases fills with
  | flat => exact own
  | call => exact own
  | @switch _ _ _ _ _ _ _ selector _ _ _ _ _ _ promotes =>
    have promoted := Graph.Own.promotes promotes own
    -- A symbol is no array and no argument.
    cases selector with
    | fixed value => exact promoted
    | read array => exact promoted.congr rfl rfl rfl

end Graph.Own

theorem Dict.Keeps.contains {arrays arrays' : Dict Descriptor} (keeps : arrays.Keeps arrays')
    (present : arrays.contains name = true) : arrays'.contains name = true := by
  obtain ⟨array, known⟩ := Option.isSome_iff_exists.mp present
  rw [Dict.contains, keeps name array known]
  rfl

structure Draft.Tidy (d : Draft) : Prop where
  own : d.graph.Own
  ids : (d.names.map Prod.fst).Nodup
  injective : (d.names.map Prod.snd).Nodup
  known : ∀ entry ∈ d.names, d.graph.arrays.contains entry.2 = true
  inputs : ∀ name ∈ d.inputs, d.graph.arrays.contains name = true
  distinct : d.inputs.Nodup
  outputs : ∀ name ∈ d.outputs, d.graph.arrays.contains name = true

theorem Builder.Creates.present {names : List String}
    (creates : Creates before d mapped vs names d') (member : name ∈ names) :
    d'.graph.arrays.contains name = true := by
  obtain ⟨j, small, rfl⟩ := mem_iff_getElem.mp member
  obtain ⟨name, array, named, -, known, -⟩ :=
    creates.getElem? (getElem?_eq_getElem (creates.length_eq ▸ small))
  cases (getElem?_eq_getElem small).symm.trans named
  rw [Dict.contains, known]
  rfl

namespace Draft.Tidy

theorem new (title : String) : (Draft.new title).Tidy :=
  ⟨.new title, nodup_nil,
    nodup_nil,
    by simp [Draft.new], by simp [Draft.new, Draft.inputs], nodup_nil,
    by simp [Draft.new, Draft.outputs]⟩

theorem transient (tidy : d.Tidy) (name : String) (array : Descriptor)
    (known : d.graph.arrays.get? name = some array) : array.transient = true := by
  obtain ⟨shape, elem, dense⟩ := tidy.own.dense name array known
  exact (Descriptor.dense_eq_ok dense).2.2.2

theorem constants (tidy : d.Tidy) (name : String) (bound : d.graph.constants.contains name = true) :
    d.graph.arrays.contains name = true := by
  obtain ⟨value, bound⟩ := Option.isSome_iff_exists.mp bound
  obtain ⟨array, known, -⟩ := tidy.own.constants name value bound
  rw [Dict.contains, known]
  rfl

theorem withGraph (tidy : d.Tidy) (own : g.Own) (keeps : d.graph.arrays.Keeps g.arrays) :
    ({ d with graph := g } : Draft).Tidy :=
  ⟨own, tidy.ids, tidy.injective, fun entry member => keeps.contains (tidy.known entry member),
    fun name member => keeps.contains (tidy.inputs name member),
    tidy.distinct, fun name member => keeps.contains (tidy.outputs name member)⟩

theorem creates {names : List String} (creates : Creates before d mapped vs names d')
    (tidy : d.Tidy) : d'.Tidy := by
  induction creates with
  | nil => exact tidy
  | @cons d d' mapped v vs name names array unmapped made _ ih =>
    have grown := tidy.withGraph (tidy.own.newArray made) (.insert made.free array)
    refine ih { grown with ids := ?_, injective := ?_, known := ?_ }
    · refine nodup_cons.2 ⟨fun member => ?_, tidy.ids⟩
      obtain ⟨entry, listed, same⟩ := mem_map.1 member
      simp only [Draft.nameOf?, Option.map_eq_none_iff, find?_eq_none,
        decide_eq_true_eq] at unmapped
      exact unmapped entry listed same
    · -- A mapped name has an array, and the new one had none.
      refine nodup_cons.2 ⟨fun member => ?_, tidy.injective⟩
      obtain ⟨entry, listed, same⟩ := mem_map.1 member
      have present := tidy.known entry listed
      rw [same, made.free] at present
      cases present
    · exact forall_mem_cons.mpr ⟨contains_withArray name array, grown.known⟩

theorem constants_of (tidy : d.Tidy) (constants : Constants f d mapped d' mapped') : d'.Tidy := by
  cases constants with
  | none => exact tidy
  | some _ creates bound =>
    have created := tidy.creates creates
    refine created.withGraph (.bindAll bound created.own) ?_
    rw [bindAll_eq bound]
    exact fun _ _ known => known

theorem step (step : LowersStep lower equations d d') (tidy : d.Tidy) : d'.Tidy := by
  cases step with
  | places _ places =>
    have created := tidy.creates places.creates
    have filled := created.withGraph (created.own.fills places.fills) places.fills.keeps
    exact ⟨filled.own.congr rfl rfl rfl, filled.ids, filled.injective, filled.known, filled.inputs,
      filled.distinct, filled.outputs⟩
  | copies made =>
    exact tidy.withGraph ((tidy.own.newArray made).congr rfl rfl rfl) (.insert made.free _)
  | unmaps fewer =>
    exact { tidy with
      ids := tidy.ids.sublist (fewer.map Prod.fst)
      injective := tidy.injective.sublist (fewer.map Prod.snd)
      known := fun entry member => tidy.known entry (fewer.subset member) }

end Draft.Tidy

theorem Draft.checkNames_eq_ok {names? : Option (List String)} (role : String)
    (present : ∀ name ∈ names?.getD [], d.graph.arrays.contains name = true) :
    d.checkNames role names? = .ok () := by
  have none : (names?.getD []).find? (fun name => !d.graph.arrays.contains name) = none := by
    rw [find?_eq_none]
    intro name member
    simpa using present name member
  rw [Draft.checkNames, none]

-- What lowering keeps true of the draft it works on.
structure Draft.Sound (d : Draft) : Prop extends d.Formed where
  tidy : d.Tidy

namespace Draft.Sound

theorem dense (sound : d.Sound) (name : String) (array : Descriptor)
    (known : d.graph.arrays.get? name = some array) :
    array.strides = Shape.rowMajor array.shape := by
  obtain ⟨shape, elem, dense⟩ := sound.tidy.own.dense name array known
  obtain ⟨rfl, -, strides, -⟩ := Descriptor.dense_eq_ok dense
  exact strides

theorem connected (sound : d.Sound) : d.graph.Connected := by
  intro id
  induction id using Nat.strongRecOn with
  | ind id ih =>
    intro inside
    rcases Nat.eq_zero_or_pos id with rfl | positive
    · rw [sound.first]
      exact .refl
    · obtain ⟨e, member, rfl⟩ := sound.entered id inside positive
      have forward := (sound.forward e member).1
      exact (ih e.source forward (forward.trans inside)).tail ⟨e, member, rfl, rfl⟩

theorem sinks (sound : d.Sound) : d.graph.sinks = [d.terminal] := by
  have inside : d.terminal < d.graph.states.length := sound.inside
  have only : ∀ id ∈ List.range d.graph.states.length, decide (d.graph.outDegree id = 0) =
    decide (id = d.terminal) := by
    intro id listed
    rw [decide_eq_decide, Graph.outDegree, length_eq_zero_iff, Graph.outEdges, filter_eq_nil_iff]
    constructor
    · intro none
      by_contra other
      obtain ⟨e, member, source⟩ := sound.left id (mem_range.1 listed) other
      exact none e member (by simpa using source)
    · rintro rfl e member
      have idle : e.source ≠ d.terminal := sound.idle e member
      simpa using idle
  rw [Graph.sinks, filter_congr only, filter_eq,
    count_eq_one_of_mem nodup_range (mem_range.2 inside), replicate_one]

theorem check (sound : d.Sound) : d.check = .ok () := by
  rw [Draft.check]
  refine unless_eq_ok.2 ⟨by simp [sound.start, sound.first], unless_eq_ok.2
    ⟨by simp [sound.sinks], ?_⟩⟩
  exact bind_eq_ok.2 ⟨(), checkNames_eq_ok "input" sound.tidy.inputs,
    checkNames_eq_ok "output" sound.tidy.outputs⟩

theorem new (title : String) : (Draft.new title).Sound :=
  ⟨.new title, .new title⟩

theorem canonical (sound : d.Sound) : d.Canonical where
  start := by rw [sound.first, sound.start]
  unentered := by
    rw [Graph.inEdges, filter_eq_nil_iff]
    intro e member
    have forward := (sound.forward e member).1
    rw [sound.start, decide_eq_true_eq]
    omega
  acyclic := ⟨id, fun e member => (sound.forward e member).1⟩
  connected := sound.connected
  sinks := sound.sinks
  parts := by
    intro id inside other
    obtain ⟨e, member, source⟩ := sound.left id inside other
    refine Edge.parts_of_excludes (ne_nil_of_mem (mem_filter.2 ⟨member, by simpa using source⟩)) ?_
    rw [Graph.outEdges, pairwise_filter]
    refine sound.exclusive.imp ?_
    intro e later excludes here there
    rw [decide_eq_true_eq] at here there
    exact excludes (here.trans there.symm)
  transient := sound.tidy.transient
  args := sound.tidy.own.args
  constants := sound.tidy.constants
  ids := sound.tidy.ids
  injective := sound.tidy.injective
  known := sound.tidy.known

theorem enter {d₁ d₂ : Draft} {mapped₁ : Nat} (sound : d.Sound)
    (constants : Constants f d mapped d₁ mapped₁)
    (creates : Creates "" d₁ mapped₁ f.inputs inputs d₂) :
    ({ d₂ with inputs? := some inputs } : Draft).Sound :=
  ⟨sound.toFormed.congr (creates.machine_eq.trans constants.machine_eq),
    { (sound.tidy.constants_of constants).creates creates with
      inputs := fun _ member => creates.present member, distinct := creates.fresh.1 }⟩

theorem step (step : LowersStep lower equations d d') (sound : d.Sound) : d'.Sound :=
  ⟨sound.toFormed.step step, sound.tidy.step step⟩

end Draft.Sound

theorem Aliases.keeps {state : Nat} {known known' : List (Var × String)} {atoms : List Atom}
    {names : List String} (aliases : Aliases state mapped d known atoms names d' known') :
    d.graph.arrays.Keeps d'.graph.arrays := by
  induction aliases with
  | nil => exact fun _ _ known => known
  | repeated _ _ ih => exact ih
  | fresh _ _ _ made _ noded _ ih =>
    obtain ⟨-, rfl⟩ := addNode_eq_ok.mp noded
    exact (Dict.Keeps.insert made.free _).trans ih

theorem Aliases.present {state : Nat} {known known' : List (Var × String)} {atoms : List Atom}
    {names : List String} (aliases : Aliases state mapped d known atoms names d' known')
    (before : ∀ entry ∈ known, d.graph.arrays.contains entry.2 = true) :
    ∀ name ∈ names, d'.graph.arrays.contains name = true := by
  induction aliases with
  | nil => simp
  | repeated found later ih =>
    exact forall_mem_cons.mpr ⟨later.keeps.contains (before _ (mem_of_find?_eq_some found)),
      ih before⟩
  | @fresh d _ _ _ _ _ copy array _ _ _ _ _ _ _ made _ noded later ih =>
    obtain ⟨-, rfl⟩ := addNode_eq_ok.mp noded
    have here : (d.graph.arrays.insert copy array).contains copy = true := by simp [Dict.contains]
    refine forall_mem_cons.mpr ⟨later.keeps.contains here, ih fun entry member => ?_⟩
    rcases mem_append.mp member with old | new
    · exact (Dict.Keeps.insert made.free array).contains (before entry old)
    · obtain rfl := mem_singleton.mp new
      exact here

theorem LowersBody.outputs_present {start : Draft}
    (body : LowersBody lower f start mapped outputs d) :
    ∀ name ∈ outputs, d.graph.arrays.contains name = true := by
  cases body with
  | equations _ _ _ resolved =>
    intro name member
    obtain ⟨found, listed, named⟩ := mem_filterMap.mp member
    obtain rfl : found = some name := named
    obtain ⟨atom, -, known⟩ := Outcome.forall₂_right resolved listed
    cases atom with
    | var v => exact known.2
    | literal s => exact known.elim
  | aliases _ _ _ _ aliases _ => exact aliases.present (by simp)

theorem Lowers.sound (lowers : Lowers fuel f d) : d.Sound := by
  obtain ⟨title, mapped, outputs, d, lowered, rfl⟩ := lowers
  have sound : d.Sound := lowered.preserves (Draft.Sound.new title).enter Draft.Sound.step
  exact ⟨sound.toFormed.congr rfl, { sound.tidy with outputs := lowered.outputs_present }⟩

namespace Lowering

theorem canonical_throughout (fuel : Nat) (f : Lambda) (title : String) (rest : List Draft)
    (mapped unnamed : Nat) :
    (∀ n count b, Gives (enter f >>= fun _ => lowerEquations (toolkit .builtin fuel) 0
      (f.equations.take n)) ⟨Draft.new title :: rest, mapped, unnamed⟩ count b →
      ∃ d mapped' unnamed', b = ⟨d :: rest, mapped', unnamed'⟩ ∧ d.Canonical ∧ d.check = .ok () ∧
        ∀ e state reported? b', Gives (place (toolkit .builtin fuel) e) b (state, reported?) b' →
          ∃ b'', Gives (settle e.primitive state reported?) b' () b'') ∧
    ∀ outputs b, Gives (lowerBody (toolkit .builtin fuel) f) ⟨Draft.new title :: rest, mapped,
      unnamed⟩ outputs b →
      ∃ d mapped' unnamed', b = ⟨d :: rest, mapped', unnamed'⟩ ∧ d.Canonical := by
  have steady : Steady (inner fuel) := steady_toolkit (fuel - 1)
  constructor
  · intro n count b given
    obtain ⟨_, _, entered, given⟩ := gives_bind.1 given
    obtain ⟨d₁, d₂, mapped₁, inputs, constants, creates, rfl⟩ := gives_enter.mp entered
    obtain ⟨_, d, mapped', unnamed', all, -, rfl⟩ := gives_lowerEquations steady given
    have sound := all.preserves (fun _ member => member) Draft.Sound.step
      ((Draft.Sound.new title).enter constants creates)
    refine ⟨d, mapped', unnamed', rfl, sound.canonical, sound.check, ?_⟩
    intro e state reported? b' placed
    obtain ⟨_, _, _, _, _, _, _, places, consistent, rfl⟩ := gives_place steady placed
    exact ⟨_, (gives_settle consistent).2
      ⟨(sound.step (.places (mem_singleton_self e) places)).check, rfl⟩⟩
  · intro outputs b given
    obtain ⟨d, mapped', unnamed', body, rfl⟩ := gives_lowerBody steady given
    exact ⟨d, mapped', unnamed', rfl,
      (body.preserves (Draft.Sound.new title).enter Draft.Sound.step).canonical⟩

def branching : Lambda :=
  let var (id : Nat) (shape : List Nat) : Var := ⟨id, .traced, shape, .int64⟩
  let neg (v w : Var) : Equation := ⟨"neg", [.var v], [w], {}, false⟩
  let same : Lambda := ⟨[var 1 [2]], [], [], [], [], [.var (var 1 [2])]⟩
  let negative : Lambda := ⟨[var 1 [2]], [], [], [], [neg (var 1 [2]) (var 4 [2])],
    [.var (var 4 [2])]⟩
  let choice : Equation :=
    ⟨"cond", [.var (var 0 []), .var (var 1 [2])], [var 2 [2]],
      Dict.ofList [("branches", .lambdas [same, negative])], false⟩
  let call : Equation := ⟨"pjit", [.var (var 2 [2])], [var 3 [2]],
    Dict.ofList [("jaxpr", .lambda negative)], false⟩
  ⟨[var 0 [], var 1 [2]], [], [], [], [choice, call], [.var (var 3 [2])]⟩

theorem canonical_throughout_branching :
    let kit := toolkit .builtin (levels .builtin branching)
    let b₀ : Builder := ⟨[Draft.new "main"], 0, 0⟩
    (∃ b d mapped unnamed, Gives (enter branching >>= fun _ => lowerEquations kit 0
      (branching.equations.take 1)) b₀ 1 b ∧
      b = ⟨[d], mapped, unnamed⟩ ∧ d.Canonical) ∧
    ∃ outputs b d mapped unnamed, Gives (lowerBody kit branching) b₀ outputs b ∧
      b = ⟨[d], mapped, unnamed⟩ ∧ d.Canonical := by
  intro kit b₀
  obtain ⟨first, whole⟩ := canonical_throughout (levels .builtin branching) branching "main" [] 0 0
  have one : ((enter branching >>= fun _ => lowerEquations kit 0 (branching.equations.take 1))
    b₀).1 = .ok 1 := by
    decide +kernel
  have both : Outcome.Succeeds (lowerBody kit branching b₀).1 := by decide +kernel
  constructor
  · rcases ran : (enter branching >>= fun _ => lowerEquations kit 0 (branching.equations.take 1))
      b₀ with ⟨outcome, b⟩
    rw [ran] at one
    subst one
    obtain ⟨d, mapped, unnamed, same, canonical, -⟩ := first 1 1 b ran
    exact ⟨b, d, mapped, unnamed, ran, same, canonical⟩
  · rcases ran : lowerBody kit branching b₀ with ⟨failure | outputs, b⟩
    · rw [ran] at both
      exact absurd both (Outcome.not_succeeds_error failure)
    · obtain ⟨d, mapped, unnamed, same, canonical⟩ := whole outputs b ran
      exact ⟨outputs, b, d, mapped, unnamed, ran, same, canonical⟩

end Lowering

end TraceFlow
