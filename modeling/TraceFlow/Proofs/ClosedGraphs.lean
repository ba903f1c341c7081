import TraceFlow.Proofs.CanonicalDrafts
import TraceFlow.Proofs.ClosedWindows
import TraceFlow.Proofs.Compilation

set_option autoImplicit false

namespace TraceFlow

open Builder Lowering List

variable {holds : Equation → Prop} {e : Equation} {name : String} {inputs outputs : List String}
  {fuel i : Nat} {d : Draft} {f : Lambda}
  {feeds feeds' : List Feed} {node : Node} {g : Graph} {loose : String → Prop}

-- A property of all equations of a function, those of the functions nested in it included.
inductive Lambda.Throughout (holds : Equation → Prop) : Lambda → Prop
  | intro (f : Lambda) : (∀ e ∈ f.equations, holds e) →
    (∀ e ∈ f.equations, ∀ callee ∈ e.nested, Throughout holds callee) → Throughout holds f

theorem Lambda.Throughout.here (all : f.Throughout holds) (member : e ∈ f.equations) : holds e := by
  cases all with
  | intro _ here _ => exact here e member

theorem Lambda.Throughout.nested (all : f.Throughout holds) (member : e ∈ f.equations)
    {callee : Lambda} (inside : callee ∈ e.nested) : callee.Throughout holds := by
  cases all with
  | intro _ _ below => exact below e member callee inside

namespace Graph.Furnished

theorem exposed (furnished : g.Furnished) (names args : List String) :
    ({ g with arrays := exposedArrays names g.arrays, args } : Graph).Furnished := by
  have found (name : String) : (exposedArrays names g.arrays).get? name =
      (g.arrays.get? name).map fun array => if name ∈ names then array.exposed else array := by
    rw [get?_exposedArrays]
    split <;> simp
  refine ⟨sorted_exposedArrays names furnished.sorted, fun name array known => ?_,
    fun name value bound => ?_⟩
  · rw [found] at known
    obtain ⟨old, present, rfl⟩ := Option.map_eq_some_iff.mp known
    have ranked := furnished.ranked name old present
    split
    · exact ranked
    · exact ranked
  · obtain ⟨array, known, elem, shape⟩ := furnished.constants name value bound
    refine ⟨_, (found name).trans (congrArg (Option.map _) known), ?_⟩
    split
    · exact ⟨elem, shape⟩
    · exact ⟨elem, shape⟩

theorem declared {α : Type} {plan : Nat → Dict Descriptor → α → Feed → Prop}
    {arrays : Dict Descriptor} {items : List α} (plans : Feed.Plans plan i arrays items feeds)
    (ranked : ∀ i arrays item feed, plan i arrays item feed → ∃ name array,
      arrays.get? name = some array ∧ feed.outer.shape = array.shape)
    (same : g.arrays = arrays) (furnished : g.Furnished) :
    ({ g with arrays := Feed.declared feeds arrays } : Graph).Furnished := by
  induction plans generalizing g with
  | nil => exact furnished.congr same.symm rfl
  | @cons i arrays a rest feed feeds here free _ ih =>
    subst same
    obtain ⟨name, array, known, shape⟩ := ranked _ _ _ _ here
    have grown := furnished.withArray free (shape ▸ furnished.ranked name array known)
    exact ih (g := { g with arrays := g.arrays.insert feed.array feed.outer }) rfl grown

end Graph.Furnished

-- A node that binds all it uses. A call gives every array that its callee does not own, and no
-- symbols.
def Node.Complete (loose : String → Prop) : Node → Prop
  | .call site callee =>
    site.symbols.entries = [] ∧ ∀ name array, callee.arrays.get? name = some array →
      array.transient = false →
      name ∈ (site.inputs.entries ++ site.outputs.entries).map Prod.fst
  | node => node.Closed loose

theorem Node.Closed.complete (closed : node.Closed loose) : node.Complete loose := by
  cases node with
  | copy source target => exact closed
  | map m => exact closed
  | call site callee => exact closed.elim

theorem Node.Complete.symbols_eq (complete : node.Complete loose) : node.symbols = [] := by
  cases node with
  | copy source target =>
    obtain ⟨read, written⟩ : source.symbols = [] ∧ target.symbols = [] := complete
    rw [symbols, read, written]
    rfl
  | map m => exact And.left complete
  | call site callee => simp [symbols, And.left complete]

theorem Graph.closed_of_complete (furnished : g.Furnished)
    (nodes : ∀ node ∈ g.nodes, node.Complete loose) (guards : Guarded g.start g.edges)
    (valid : g.Valid) : g.Closed loose := by
  refine ⟨furnished.sorted, fun name value d bound known => ?_, fun source target member => nodes _
    member, fun m member body made => ?_,
    fun site callee member => nodes _ member, guards⟩
  · obtain ⟨array, found, typed⟩ := furnished.constants name value bound
    cases found.symm.trans known
    exact typed
  · refine (nodes _ member).2 body made fun access listed empty => ?_
    obtain ⟨-, -, params, -, -, accesses⟩ := Graph.checkMap_eq_ok.mp (valid.nodes _ member)
    obtain ⟨d, known, rank⟩ := Graph.known_of_checkAccess (accesses access listed)
    rw [empty, length_nil] at rank
    exact furnished.ranked _ _ known (length_eq_zero_iff.mp rank.symm)

theorem distinct_ne_nil (used : (inputs.isEmpty && outputs.isEmpty) = false) :
    distinct (inputs ++ outputs) ≠ [] := by
  cases inputs with
  | nil =>
    cases outputs with
    | nil => cases used
    | cons name rest => exact cons_ne_nil _ _
  | cons name rest => exact cons_ne_nil _ _

theorem Graph.Valid.mem_args (valid : g.Valid) (callable : g.args ≠ []) {array : Descriptor}
    (known : g.arrays.get? name = some array)
    (foreign : array.transient = false) : name ∈ g.args := by
  have signature := valid.signature
  rw [checkSignature, if_pos (by simpa using callable)] at signature
  obtain ⟨_, -, listed⟩ := bind_eq_ok.mp signature
  have here := Outcome.forM_eq_ok.mp listed _ (Dict.mem_of_lookup known)
  by_contra missing
  simp [foreign, missing, invalid_eq] at here

theorem Embeds.complete {child : Draft} (embeds : Embeds child inputs outputs node) :
    node.Complete loose := by
  obtain ⟨counted, counted', routine, finished, rfl⟩ := embeds
  obtain ⟨ins, outs, g, done, rfl, checked⟩ := finish_eq_ok.mp finished
  obtain ⟨-, -, -, valid⟩ := Routine.check_eq_ok.mp (checked rfl)
  refine ⟨rfl, fun name array known foreign => ?_⟩
  have named : child.inputs = ins ∧ child.outputs = outs := by
    simp [Draft.inputs, Draft.outputs, done.reads, done.writes]
  have listed := (mem_distinct _).mp (valid.mem_args (distinct_ne_nil done.used) known foreign)
  rw [named.1] at counted
  rw [named.2] at counted'
  rw [map_append, mem_append, named.1, named.2]
  refine (mem_append.mp listed).imp (fun member => ?_) (fun member => ?_)
  · exact Dict.mem_keys_ofList.mpr (by rwa [map_fst_zip (Nat.le_of_eq counted)])
  · exact Dict.mem_keys_ofList.mpr (by rwa [map_fst_zip (Nat.le_of_eq counted')])

theorem Lowers.complete (lowers : Lowers fuel f d)
    (exponents : loose "NaN" ∨ f.Throughout Equation.WholeExponent)
    (member : node ∈ d.graph.nodes) : node.Complete loose := by
  obtain ⟨s, state, inside⟩ := mem_flatMap.mp member
  cases lowers.made s state node inside with
  | copied => exact ⟨Access.symbols_full _ _, Access.symbols_full _ _⟩
  | emitted listed emitted => exact (emitted.closed (exponents.imp_right (·.here listed))).complete
  | called _ _ _ calls =>
    obtain ⟨_, -, _, -, embeds⟩ := calls.lowers
    exact embeds.complete

theorem Fills.declared {lower : Lambda → Option String → LowerM Draft}
    {names : List (Option String)} {label : String} {g' : Graph} {block : Block}
    (fills : Fills lower names outputs e label g g' block) {symbol : String}
    (known : symbol ∈ g'.symbols.keys) :
    symbol ∈ g.symbols.keys ∨ ∃ edge ∈ block.edges, symbol ∈ edge.assignments.keys := by
  cases fills with
  | flat => exact .inl known
  | call => exact .inl known
  | @switch _ _ _ _ _ _ _ selector _ _ _ _ _ _ promotes =>
    rw [promotes.eq] at known
    cases selector with
    | fixed value => exact .inl known
    | read array =>
      refine (Dict.mem_keys_insert.mp known).symm.imp_right fun same => ?_
      refine ⟨{ source := 0, target := 1, assignments := Selector.assignments array }, ?_,
        Dict.mem_keys_ofList.mpr (same ▸ mem_cons_self)⟩
      simp [Block.switch, Selector.edges]

theorem Builder.Creates.symbols_eq {before : String} {mapped : Nat} {vs : List Var}
    {names : List String} {d' : Draft}
    (creates : Creates before d mapped vs names d') : d'.graph.symbols = d.graph.symbols := by
  rw [creates.eq]

-- Symbols are declared along with the edge that sets them.
theorem Lowers.declared (lowers : Lowers fuel f d) : ∀ symbol ∈ d.graph.symbols.keys,
    ∃ edge ∈ d.graph.edges, symbol ∈ edge.assignments.keys := by
  obtain ⟨title, mapped, outputs, d, lowered, rfl⟩ := lowers
  refine lowered.preserves (P := fun d => ∀ symbol ∈ d.graph.symbols.keys, ∃ edge ∈ d.graph.edges,
    symbol ∈ edge.assignments.keys)
    (fun {d₁ d₂ _ _} constants creates => ?_) fun step declared => ?_
  · have none : d₂.graph.symbols = {} := by
      rw [creates.symbols_eq]
      cases constants with
      | none => rfl
      | some _ created bound =>
        rw [bindAll_eq bound]
        exact created.symbols_eq
    rw [none]
    exact fun symbol known => absurd known not_mem_nil
  · cases step with
    | places _ places =>
      intro symbol known
      rcases places.fills.declared known with earlier | ⟨edge, member, assigned⟩
      · rw [places.creates.eq] at earlier
        obtain ⟨edge, member, assigned⟩ := declared symbol earlier
        refine ⟨edge, mem_append_left _ ?_, assigned⟩
        rw [places.fills.graph_eq, places.creates.eq]
        exact member
      · exact ⟨_, mem_append_right _ (mem_cons_of_mem _ (mem_map_of_mem member)), assigned⟩
    | copies => exact declared
    | unmaps => exact declared

theorem Lowers.freeSymbols (lowers : Lowers fuel f d) : d.graph.freeSymbols = [] := by
  refine eq_nil_iff_forall_not_mem.mpr fun symbol free => ?_
  have sound := lowers.sound
  obtain ⟨used, unassigned⟩ := Graph.mem_freeSymbols.mp free
  rcases used with declared | ⟨edge, member, guards⟩ | ⟨node, member, uses⟩
  · obtain ⟨edge, member, assigned⟩ := lowers.declared symbol declared
    exact unassigned edge member assigned
  · obtain ⟨behind, assigned⟩ := sound.guarded edge member symbol guards
    have forward := sound.leads member
    obtain ⟨before, listed, enters⟩ := sound.entered edge.source (forward.1.trans forward.2)
      (Nat.pos_of_ne_zero behind)
    exact unassigned before listed (assigned before listed enters)
  · have complete : node.Complete fun _ => True := lowers.complete (.inl trivial) member
    rw [complete.symbols_eq] at uses
    cases uses

theorem Lowers.closed_finish {r : Routine} (lowers : Lowers fuel f d)
    (exponents : loose "NaN" ∨ f.Throughout Equation.WholeExponent)
    (finished : d.finish true = .ok r) : r.graph.Closed loose ∧ r.graph.Acyclic := by
  obtain ⟨ins, outs, g, done, rfl, checked⟩ := finish_eq_ok.mp finished
  obtain ⟨-, -, -, valid⟩ := Routine.check_eq_ok.mp (checked rfl)
  obtain ⟨-, rfl⟩ := expose_eq_ok.mp done.exposed
  have sound := lowers.sound
  refine ⟨Graph.closed_of_complete (sound.tidy.own.toFurnished.exposed _ _)
    (fun node => lowers.complete exponents) ?_ valid, sound.ordered.2⟩
  simp only [sound.first]
  exact sound.guarded

namespace Feed

variable {arrays : Dict Descriptor} {item : String × ArgSpec} {feed : Feed}

theorem Plans.complete {α : Type} {plan : Nat → Dict Descriptor → α → Feed → Prop} {items : List α}
    (plans : Plans plan i arrays items feeds)
    (whole : ∀ i arrays item feed, plan i arrays item feed → feed.node.Closed loose) :
    ∀ node ∈ feeds.map Feed.node, node.Complete loose := by
  induction plans with
  | nil => simp
  | cons here _ _ ih =>
    intro node member
    rcases mem_cons.mp member with rfl | later
    · exact (whole _ _ _ _ here).complete
    · exact ih node later

theorem Enters.closed (enters : Enters i arrays item feed) : feed.node.Closed loose := by
  cases enters with
  | intro => exact ⟨Access.symbols_full _ _, Access.symbols_full _ _⟩

theorem Leaves.closed (leaves : Leaves i arrays name feed) : feed.node.Closed loose := by
  cases leaves with
  | intro => exact ⟨Access.symbols_full _ _, Access.symbols_full _ _⟩

theorem Enters.shape (enters : Enters i arrays item feed) :
    ∃ name array, arrays.get? name = some array ∧ feed.outer.shape = array.shape := by
  cases enters with
  | intro known made => exact ⟨_, _, known, (inputArray_eq_ok made).1⟩

theorem Leaves.shape (leaves : Leaves i arrays name feed) :
    ∃ name array, arrays.get? name = some array ∧ feed.outer.shape = array.shape := by
  cases leaves with
  | intro known dense => exact ⟨_, _, known, (Descriptor.dense_eq_ok dense).1⟩

end Feed

theorem Draft.Formed.guarded_staged (formed : d.Formed) (feeds feeds' : List Feed) :
    Guarded d.graph.states.length ((d.entered feeds).left feeds').graph.edges := by
  have start := formed.start
  intro e member s used
  rcases Draft.mem_edges_staged member with old | rfl | rfl
  · obtain ⟨later, assigned⟩ := formed.guarded e old s used
    have forward := formed.leads old
    refine ⟨by omega, fun before listed enters => ?_⟩
    rcases Draft.mem_edges_staged listed with known | rfl | rfl
    · exact assigned before known enters
    · simp only at enters
      omega
    · simp only at enters
      omega
  · cases used
  · cases used

theorem closed_of_toRoutine {args : List ArgSpec} {r : Routine} (lowers : Lowers fuel f d)
    (exponents : loose "NaN" ∨ f.Throughout Equation.WholeExponent)
    (made : d.toRoutine args true = .ok r) :
    r.graph.Everywhere fun g => g.Closed loose ∧ g.Acyclic := by
  have acyclic := (toRoutine_everywhere lowers made).here.2
  have sound := lowers.sound
  obtain ⟨feeds, feeds', stages, rfl, checked⟩ := toRoutine_iff.mp made
  obtain ⟨-, -, -, valid⟩ := Routine.check_eq_ok.mp (checked rfl)
  refine .intro _ ⟨Graph.closed_of_complete ?_ ?_ (sound.guarded_staged feeds feeds') valid,
    acyclic⟩ fun site callee member => ?_
  · have entered := Graph.Furnished.declared stages.enters (fun _ _ _ _ => Feed.Enters.shape) rfl
      sound.tidy.own.toFurnished
    have left := Graph.Furnished.declared stages.leaves (fun _ _ _ _ => Feed.Leaves.shape) rfl
      entered
    exact (left.exposed (distinct (feeds.map Feed.array ++ feeds'.map Feed.array)) []).congr rfl rfl
  · intro node member
    rcases Draft.node_staged member with inner | ⟨feed, listed, rfl⟩ | ⟨feed, listed, rfl⟩
    · exact lowers.complete exponents inner
    · exact stages.enters.complete (fun _ _ _ _ => Feed.Enters.closed) _ (mem_map_of_mem listed)
    · exact stages.leaves.complete (fun _ _ _ _ => Feed.Leaves.closed) _ (mem_map_of_mem listed)
  · exact everywhere_callees (fun f exponents e listed callee inside => exponents.imp_right
      (·.nested listed inside))
      (fun _ _ _ _ exponents lowers => lowers.closed_finish exponents) fuel f d exponents lowers
        site callee (Draft.node_of_routine member nofun)

end TraceFlow
