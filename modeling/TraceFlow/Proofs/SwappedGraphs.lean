import TraceFlow.Proofs.SingleEquations
import TraceFlow.Proofs.SwappedNodes

set_option autoImplicit false

namespace TraceFlow

open Builder Kernel Lowering List

variable {op : Elementwise}

variable {names : List (Option String)} {i : Nat} {x : Var} {e : Equation}
  {pieces : List Template.Piece} {formula : Expr} {inputs : List Var} {array : String}

namespace Draft

def withStates (d : Draft) (states : List State) : Draft :=
  { d with graph := d.graph.withStates states }

variable {d : Draft} {states : List State} {feeds feeds' : List Feed}

variable (count : states.length = d.graph.states.length)

include count

theorem check_withStates : (d.withStates states).check = d.check := by
  have sinks : (d.withStates states).graph.sinks = d.graph.sinks := by
    rw [Graph.sinks, Graph.sinks]
    change (List.range states.length).filter _ = _
    rw [count]
    rfl
  rw [check, check, sinks]
  rfl

theorem entered_withStates (feeds : List Feed) :
    (d.withStates states).entered feeds = (d.entered feeds).withStates
      (states ++ [⟨d.graph.name ++ "__start_state", feeds.map Feed.node⟩]) := by
  simp only [entered, withStates, Graph.withStates, count]

theorem left_withStates (feeds : List Feed) :
    (d.withStates states).left feeds = (d.left feeds).withStates
      (states ++ [⟨"output_processing_stage", feeds.map Feed.node⟩]) := by
  simp only [left, withStates, Graph.withStates, count]

theorem staged_withStates : ((d.withStates states).entered feeds).left feeds' =
    ((d.entered feeds).left feeds').withStates
      (states ++ [⟨d.graph.name ++ "__start_state", feeds.map Feed.node⟩] ++
      [⟨"output_processing_stage", feeds'.map Feed.node⟩]) := by
  rw [entered_withStates count, left_withStates (by simp [entered, count])]

omit count

theorem Stages.withStates {specs : List ArgSpec} (stages : d.Stages specs feeds feeds')
    (count : states.length = d.graph.states.length) :
    (d.withStates states).Stages specs feeds feeds' := by
  refine ⟨(check_withStates count).trans stages.checked, stages.named, stages.apart, stages.counted,
    stages.enters, stages.leaves, stages.used, ?_⟩
  rw [staged_withStates count, check_withStates (by simp [left, entered, count])]
  exact stages.closed

theorem routine_withStates (count : states.length = d.graph.states.length) :
    (d.withStates states).routine feeds feeds' =
    { d.routine feeds feeds' with graph := (d.routine feeds feeds').graph.withStates (states ++
        [⟨d.graph.name ++ "__start_state", feeds.map Feed.node⟩] ++
        [⟨"output_processing_stage", feeds'.map Feed.node⟩]) } := by
  rw [routine, staged_withStates count]
  rfl

end Draft

theorem resolved_withVar {d : Draft} {atoms : List Atom} {s : Scalar} {name : String}
    (operand : atoms[i]? = some (.var x)) (known : Resolved d true (.var x) (some name))
    (resolved : List.Forall₂ (Resolved d true) (atoms.set i (.literal s)) names) :
    List.Forall₂ (Resolved d true) atoms (names.set i (some name)) ∧
    (names.set i (some name)).set i none = names := by
  induction atoms generalizing i names with
  | nil => cases operand
  | cons atom rest ih =>
    cases i with
    | zero =>
      cases operand
      cases resolved with
      | @cons _ name? _ names here others =>
        cases name? with
        | some _ => exact here.elim
        | none => exact ⟨.cons known others, rfl⟩
    | succ i =>
      cases resolved with
      | cons here others =>
        obtain ⟨rest, back⟩ := ih operand others
        exact ⟨.cons here rest, congrArg (_ :: ·) back⟩

-- The drafts of a function of one equation with and without a swapped operand.
inductive SwappedDrafts (e : Equation) (op : Elementwise) (inputs : List Var) (i : Nat) (v : Datum)
    (pieces : List Template.Piece) (formula : Expr) : Draft → Draft → Prop
  | intro {ins : List String} {entered : Draft} {names : List (Option String)}
    {array output : String} {opened : Draft}
    {results : List (Option String)} {m m' : MapNode} :
    LowersSingle op.nodes e inputs ins entered names [output] opened [.map m] results →
    names[i]? = some (some array) → MapNode.Swapped i array v pieces formula names output m m' →
    SwappedDrafts e op inputs i v pieces formula (e.lowered [output] opened [.map m] results)
      (e.lowered [output] opened [.map m'] results)

theorem Elementwise.nodes_eq_ok {arrays : Dict Descriptor} {outs : List String}
    {emitted : List Node} :
    op.nodes arrays names outs e = .ok emitted ↔ ∃ output v rest m, outs = [output] ∧
    e.outputs = v :: rest ∧ op.node names output v e = .ok m ∧ emitted = [.map m] := by
  rcases outs with _ | ⟨output, _ | ⟨second, others⟩⟩
  · simp [nodes, refuse]
  · rcases known : e.outputs with _ | ⟨v, rest⟩
    · simp [nodes, known, refuse]
    · simp only [nodes, known, bind_eq_ok, Outcome.pure_eq, Except.ok.injEq, List.cons.injEq,
        and_true]
      constructor
      · rintro ⟨m, made, rfl⟩
        exact ⟨output, v, rest, m, rfl, ⟨rfl, rfl⟩, made, rfl⟩
      · rintro ⟨_, _, _, m, rfl, ⟨rfl, rfl⟩, made, rfl⟩
        exact ⟨m, made, rfl⟩
  · simp [nodes, refuse]

theorem check_followedBy_single (d : Draft) (label : String) (emitted emitted' : List Node) :
    (d.followedBy (.single label emitted')).check =
    (d.followedBy (.single label emitted)).check := by
  have same : d.followedBy (.single label emitted') =
      (d.followedBy (.single label emitted)).withStates (d.graph.states ++ [⟨label, emitted'⟩]) :=
      rfl
  rw [same, Draft.check_withStates (by simp [Draft.followedBy, Block.single])]

theorem both_lower_swapped {rule : Rule} {text : String}
    (listed : RuleBook.builtin.get? e.primitive = some rule)
    (flat : ∀ kit, Flat (rule.apply kit) op.nodes)
    (kept : e.outputs.any Var.isDropped = false) (swappable : Arithmetic.Swappable op e text)
    (known : Template.Formula text pieces formula)
    {j : Nat} {s : Scalar} (operand : e.inputs[i]? = some (.var x)) (scalar : x.shape = [])
    (input : inputs[j]? = some x) (whole : ∀ s, .literal s ∈ e.inputs → Whole s.value)
    (elem : s.elem = x.elem) (fits : Whole s.value) (written : Written s.value) :
    Outcome.Both (SwappedDrafts e op inputs i s.value pieces formula)
      (lower .builtin (e.over inputs) none (.new 0)).1
      (lower .builtin ((e.withLiteral i s).over inputs) none (.new 0)).1 := by
  have one {child : Draft} := @lower_over_eq_ok e op.nodes child inputs rule listed flat kept
  have two {child : Draft} := @lower_over_eq_ok (e.withLiteral i s) op.nodes child inputs rule
    listed flat kept
  refine .of_exists ?_ ?_
  · intro d lowered
    obtain ⟨ins, entered, names, outs, opened, emitted, results, lowers, rfl⟩ := one.mp lowered
    obtain ⟨output, v, rest, m, rfl, outputs, made, rfl⟩ := Elementwise.nodes_eq_ok.mp lowers.noded
    obtain ⟨name?, named, resolved⟩ := Outcome.exists_of_forall₂ lowers.resolved.flip operand
    cases name? with
    | none => exact resolved.elim
    | some name =>
      have both := Elementwise.both_node swappable known lowers.resolved operand scalar named whole
        elem fits written output v
      obtain ⟨m', made', swapped⟩ := both.of_ok made
      have noded : op.nodes opened.graph.arrays (names.set i none) [output] (e.withLiteral i s) =
        .ok [.map m'] :=
        Elementwise.nodes_eq_ok.mpr ⟨output, v, rest, m', rfl, outputs, made', rfl⟩
      exact ⟨_, two.mpr ⟨ins, entered, names.set i none, [output], opened, [.map m'], results,
        ⟨lowers.pure, lowers.enters,
        resolved_withLiteral lowers.resolved i s, lowers.creates, lowers.labelled, noded,
        (check_followedBy_single opened _ _ _).trans lowers.checked, lowers.returned⟩, rfl⟩,
        .intro lowers named swapped⟩
  · intro d' lowered
    obtain ⟨ins, entered, names, outs, opened, emitted, results, lowers, rfl⟩ := two.mp lowered
    obtain ⟨output, v, rest, m', rfl, outputs, made', rfl⟩ :=
      Elementwise.nodes_eq_ok.mp lowers.noded
    obtain ⟨name, _, -, mapped, present, -⟩ := lowers.declares_input input
    obtain ⟨resolved, back⟩ := resolved_withVar operand ⟨mapped, present⟩ lowers.resolved
    have named : (names.set i (some name))[i]? = some (some name) := by
      have inside := (List.getElem?_eq_some_iff.mp operand).1
      rw [resolved.length_eq, length_set] at inside
      rw [getElem?_set_self inside]
    have both := Elementwise.both_node swappable known resolved operand scalar named whole elem fits
      written output v
    rw [back] at both
    obtain ⟨m, made, -⟩ := both.to_ok made'
    have noded : op.nodes opened.graph.arrays (names.set i (some name)) [output] e = .ok [.map m] :=
      Elementwise.nodes_eq_ok.mpr ⟨output, v, rest, m, rfl, outputs, made, rfl⟩
    exact ⟨_, one.mpr ⟨ins, entered, names.set i (some name), [output], opened, [.map m], results,
      ⟨lowers.pure, lowers.enters, resolved,
      lowers.creates, lowers.labelled, noded, (check_followedBy_single opened _ _ _).trans
        lowers.checked, lowers.returned⟩, rfl⟩⟩

theorem not_succeeds_lower_dropped (dropped : e.outputs.any Var.isDropped = true)
    (inputs : List Var) : ¬ Outcome.Succeeds (lower .builtin (e.over inputs) none (.new 0)).1 := by
  rintro ⟨draft, lowered⟩
  have given : Gives (lower .builtin (e.over inputs) none) (.new 0) draft
    (lower .builtin (e.over inputs) none (.new 0)).2 := Prod.ext lowered rfl
  obtain ⟨_, _, _, _, body, -⟩ := lowers_of_gives given
  cases body with
  | equations _ _ all _ =>
    cases all with
    | dropped _ _ none => cases none
    | cons kept _ _ =>
      rw [dropped] at kept
      cases kept
  | aliases _ _ all _ aliases _ =>
    cases all with
    | dropped _ alike _ =>
      change Aliases _ _ _ [] (e.outputs.map .var) _ _ _ at aliases
      cases outputs : e.outputs with
      | nil => simp [outputs] at dropped
      | cons v rest =>
        rw [outputs] at aliases alike
        rw [all_cons, Bool.and_eq_true] at alike
        rw [map_cons] at aliases
        cases aliases with
        | repeated found _ => cases found
        | fresh _ _ _ made _ _ _ =>
          rw [made.used] at alike
          cases alike.1

theorem MapNode.mem_accesses {m : MapNode} (sorted : m.inputs.Sorted) {a : Access} :
    a ∈ m.accesses ↔ (∃ c, m.inputs.get? c = some a) ∨ ∃ c, (c, a) ∈ m.outputs.entries := by
  simp only [accesses, mem_map, mem_append, Prod.exists, exists_eq_right, exists_or,
    sorted.mem_entries]

theorem MapNode.Swaps.mem_accesses {m m' : MapNode} (swaps : m.Swaps i array m') {a : Access} :
    a ∈ m.accesses ↔ a = .element array [.constant 0] ∨ a ∈ m'.accesses := by
  rw [MapNode.mem_accesses swaps.inputs.sorted, MapNode.mem_accesses swaps.inputs.sorted',
    swaps.outputs, ← or_assoc]
  refine or_congr_left ⟨?_, ?_⟩
  · rintro ⟨c, known⟩
    by_cases same : c = "__in" ++ i.repr
    · subst same
      cases known.symm.trans swaps.inputs.here
      exact .inl rfl
    · exact .inr ⟨c, (swaps.inputs.others c same).trans known⟩
  · rintro (rfl | ⟨c, known⟩)
    · exact ⟨_, swaps.inputs.here⟩
    · have apart : c ≠ "__in" ++ i.repr := by
        rintro rfl
        rw [swaps.inputs.gone] at known
        cases known
      exact ⟨c, (swaps.inputs.others c apart).symm.trans known⟩

theorem Graph.checkAccess_first {g : Graph} {d : Descriptor} (known : g.arrays.get? array = some d)
    (shape : d.shape = [1])
    (locals : List String) : g.checkAccess locals (.element array [.constant 0]) = .ok () := by
  have found : g.array? (Access.element array [.constant 0]).array = some d := known
  unfold checkAccess
  rw [found]
  dsimp only
  rw [Descriptor.rank, shape, if_neg (fun other => other rfl)]
  rfl

namespace MapNode.Swapped

variable {i : Nat} {array output : String} {v : Datum} {pieces : List Template.Piece} {e : Expr}
  {names : List (Option String)} {m m' : MapNode}

theorem checkMap_iff (swapped : MapNode.Swapped i array v pieces e names output m m') {g : Graph}
    {d : Descriptor}
    (known : g.arrays.get? array = some d) (shape : d.shape = [1]) : g.checkMap 0 m = .ok () ↔
    g.checkMap 0 m' = .ok () := by
  obtain ⟨swaps, -, -, t, t', -, code, code'⟩ := swapped
  have assigns (text : String) : ("__out = " ++ text).toList.contains '=' = true := by
    rw [String.toList_append, contains_iff_mem]
    exact mem_append_left _ (by decide)
  rw [Graph.checkMap_eq_ok, Graph.checkMap_eq_ok, code, code', assigns, assigns, swaps.outputs,
    swaps.axes, swaps.fixed, swaps.fixed']
  have accesses (locals : List String) : (∀ a ∈ m.accesses, g.checkAccess locals a = .ok ()) ↔
    ∀ a ∈ m'.accesses, g.checkAccess locals a = .ok () := by
    simp only [swaps.mem_accesses, or_imp, forall_and, forall_eq,
      Graph.checkAccess_first known shape, true_and]
  simp only [accesses]

theorem mem_symbols (swapped : MapNode.Swapped i array v pieces e names output m m')
    {symbol : String} : symbol ∈ (Node.map m).symbols ↔ symbol ∈ (Node.map m').symbols := by
  have locals : m'.locals = m.locals := by
    rw [MapNode.locals, MapNode.locals, swapped.swaps.axes, swapped.swaps.fixed,
      swapped.swaps.fixed']
  have accesses : symbol ∈ m.accesses.flatMap Access.symbols ↔
    symbol ∈ m'.accesses.flatMap Access.symbols := by
    have none : symbol ∉ (Access.element array [.constant 0]).symbols := not_mem_nil
    simp only [mem_flatMap, swapped.swaps.mem_accesses, or_and_right, exists_or, exists_eq_left,
      none, false_or]
  simp only [Node.symbols, MapNode.outerSymbols, mem_filter, accesses, locals]

end MapNode.Swapped

-- A node that passes wherever another does, and takes no more symbols.
def Graph.Trades (g : Graph) (node node' : Node) : Prop :=
  (g.checkNode 0 node = .ok () → g.checkNode 0 node' = .ok ()) ∧ ∀ symbol ∈ node'.symbols,
    symbol ∈ node.symbols

theorem Graph.Trades.refl (g : Graph) (node : Node) : g.Trades node node :=
  ⟨id, fun _ => id⟩

theorem Routine.check_renoded {r : Routine} (checked : r.check = .ok ()) {states : List State}
    (count : states.length = r.graph.states.length)
    (trades : ∀ node' ∈ (r.graph.withStates states).nodes, ∃ node ∈ r.graph.nodes,
      r.graph.Trades node node') :
    ({ r with graph := r.graph.withStates states } : Routine).check = .ok () := by
  obtain ⟨inputs, outputs, closed, valid⟩ := check_eq_ok.mp checked
  refine check_eq_ok.mpr ⟨?_, ?_, ?_, valid.renoded count fun node' member => ?_⟩
  · exact (checkRole_congr rfl rfl "inputs" r.inputs).trans inputs
  · exact (checkRole_congr rfl rfl "outputs" r.outputs).trans outputs
  · have none := List.isEmpty_iff.mp closed
    refine List.isEmpty_iff.mpr
      (subset_nil.mp (none ▸ Graph.freeSymbols_renoded fun node' member symbol uses => ?_))
    obtain ⟨node, known, trades⟩ := trades node' member
    exact ⟨node, known, trades.2 symbol uses⟩
  · obtain ⟨node, known, trades⟩ := trades node' member
    exact trades.1 (valid.nodes node known)

section

variable {e : Equation} {outs : List String} {opened : Draft} {results : List (Option String)}
  {feeds feeds' : List Feed}

theorem Equation.routine_lowered (node node' : Node) :
    (e.lowered outs opened [node'] results).routine feeds feeds' =
    { (e.lowered outs opened [node] results).routine feeds feeds' with
      graph := ((e.lowered outs opened [node] results).routine feeds feeds').graph.withStates
        (opened.graph.states ++ [⟨e.label outs, [node']⟩] ++
        [⟨opened.graph.name ++ "__start_state", feeds.map Feed.node⟩] ++
        [⟨"output_processing_stage", feeds'.map Feed.node⟩]) } := by
  have same : e.lowered outs opened [node'] results =
      (e.lowered outs opened [node] results).withStates (opened.graph.states ++
        [⟨e.label outs, [node']⟩]) := rfl
  rw [same, Draft.routine_withStates (by simp [Equation.lowered, Draft.followedBy, Block.single])]
  rfl

theorem Equation.check_lowered {node node' : Node}
    (trades : ((e.lowered outs opened [node] results).routine feeds feeds').graph.Trades node node')
    (checked : ((e.lowered outs opened [node] results).routine feeds feeds').check = .ok ()) :
    ((e.lowered outs opened [node'] results).routine feeds feeds').check = .ok () := by
  have states : ((e.lowered outs opened [node] results).routine feeds feeds').graph.states =
    opened.graph.states ++ [⟨e.label outs, [node]⟩] ++
      [⟨opened.graph.name ++ "__start_state", feeds.map Feed.node⟩] ++
      [⟨"output_processing_stage", feeds'.map Feed.node⟩] := rfl
  rw [routine_lowered node node']
  refine Routine.check_renoded checked (by simp [states]) fun other member => ?_
  obtain ⟨s, listed, inside⟩ := mem_flatMap.mp member
  simp only [Graph.withStates, mem_append, mem_singleton] at listed
  have stays (kept : s ∈ ((e.lowered outs opened [node] results).routine feeds
    feeds').graph.states) :=
    (⟨other, mem_flatMap.mpr ⟨s, kept, inside⟩,
      .refl _ _⟩ :
      ∃ found ∈ ((e.lowered outs opened [node] results).routine feeds feeds').graph.nodes,
      ((e.lowered outs opened [node] results).routine feeds feeds').graph.Trades found other)
  simp only [states, mem_append, mem_singleton] at stays
  rcases listed with ((old | rfl) | entry) | exit
  · exact stays (.inl (.inl (.inl old)))
  · obtain rfl := mem_singleton.mp inside
    refine ⟨node, mem_flatMap.mpr ⟨⟨e.label outs, [node]⟩, ?_, mem_singleton_self _⟩, trades⟩
    simp [states]
  · exact stays (.inl (.inr entry))
  · exact stays (.inr exit)

end

theorem SwappedDrafts.both_toRoutine {j : Nat} {v : Datum}
    {d d' : Draft} (swapped : SwappedDrafts e op inputs i v pieces formula d d')
    (operand : e.inputs[i]? = some (.var x))
    (scalar : x.shape = []) (input : inputs[j]? = some x) (specs : List ArgSpec) :
    Outcome.Both (fun r r' => ∃ feeds feeds', d.Stages specs feeds feeds' ∧
      r = d.routine feeds feeds' ∧ r' = d'.routine feeds feeds' ∧ r.check = .ok () ∧ r'.check = .ok
          ()) (d.toRoutine specs true) (d'.toRoutine specs true) := by
  cases swapped with
  | @intro ins entered names array output opened results m m' lowers named swapped =>
    obtain ⟨_, descriptor, -, mapped, -, declares, -, shape⟩ := lowers.declares_input input
    obtain ⟨name?, named', resolved⟩ := Outcome.exists_of_forall₂ lowers.resolved.flip operand
    cases named.symm.trans named'
    cases mapped.symm.trans resolved.1
    rw [arrayShape, scalar] at shape
    have count (node node' : Node) :
      (opened.graph.states ++ [(⟨e.label [output], [node']⟩ : State)]).length =
        (e.lowered [output] opened [node] results).graph.states.length := by
      simp [Equation.lowered, Draft.followedBy, Block.single]
    refine .of_exists ?_ ?_
    · intro r made
      obtain ⟨feeds, feeds', stages, rfl, checked⟩ := toRoutine_iff.mp made
      have known := stages.get?_routine declares.known
      have trades : ((e.lowered [output] opened [.map m] results).routine feeds feeds').graph.Trades
        (.map m) (.map m') :=
        ⟨(swapped.checkMap_iff known shape).mp, fun _ => swapped.mem_symbols.mpr⟩
      have checked' := Equation.check_lowered trades (checked rfl)
      exact ⟨_, toRoutine_iff.mpr ⟨feeds, feeds', stages.withStates (count _ _), rfl,
        fun _ => checked'⟩, feeds, feeds', stages, rfl, rfl,
        checked rfl, checked'⟩
    · intro r' made
      obtain ⟨feeds, feeds', stages, rfl, checked⟩ := toRoutine_iff.mp made
      have back : (e.lowered [output] opened [.map m] results).Stages specs feeds feeds' :=
        stages.withStates (count (.map m') (.map m))
      have known : ((e.lowered [output] opened [.map m'] results).routine feeds
        feeds').graph.arrays.get? array = some descriptor :=
        back.get?_routine declares.known
      have trades : ((e.lowered [output] opened [.map m'] results).routine feeds
        feeds').graph.Trades (.map m') (.map m) :=
        ⟨(swapped.checkMap_iff known shape).mpr, fun _ => swapped.mem_symbols.mp⟩
      exact ⟨_, toRoutine_iff.mpr ⟨feeds, feeds', back, rfl, fun _ => Equation.check_lowered trades
        (checked rfl)⟩⟩

end TraceFlow
