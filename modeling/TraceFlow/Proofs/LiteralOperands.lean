import TraceFlow.Proofs.Compilation
import TraceFlow.Proofs.SwappedGraphs

set_option autoImplicit false

namespace TraceFlow

open Builder Kernel Lowering Machine Program List

variable {d : Datum} {pieces : List Template.Piece} {s : Scalar} {memory : Memory} {formula : Expr}
  {e : Equation} {op : Elementwise}

theorem asRead_of_signed (proper : s.Proper) (whole : s.elem.isFloat = false)
    (signed : s.elem.isUnsigned = false) : asRead s.value = s.value := by
  have cast : s.value.cast s.elem = s.value := proper
  rw [← cast]
  generalize s.elem = elem at whole signed
  cases elem with
  | float32 | float64 => cases whole
  | uint8 | uint16 | uint32 | uint64 => cases signed
  | _ => rfl

theorem Tensor.small_of_get {t : Tensor} (narrow : t.elem ≠ .uint64) {offset : Nat}
    (read : t.get offset = .ok d) : d.Small := by
  obtain ⟨-, rfl⟩ := get_eq_ok.mp read
  have few := wordAt_lt t.bytes (offset * t.elem.width) t.elem.width
  generalize wordAt t.bytes (offset * t.elem.width) t.elem.width = word at few ⊢
  generalize t.elem = elem at narrow few ⊢
  cases elem with
  | uint64 => exact absurd rfl narrow
  | uint8 | uint16 | uint32 =>
    change word.toUInt64.toNat < 0x8000000000000000
    rw [Nat.toUInt64_eq, UInt64.toNat_ofNat']
    refine Nat.lt_of_le_of_lt (Nat.mod_le _ _) (few.trans (by decide))
  | _ => exact trivial

theorem Access.exists_of_readElement {access : Access} {lookup : String → Option Int}
    (read : access.readElement memory lookup = .ok d) :
    ∃ t offset, memory.get? access.array = some t ∧ t.get offset = .ok d := by
  obtain ⟨index, -, read⟩ := bind_eq_ok.mp read
  obtain ⟨t, found, read⟩ := bind_eq_ok.mp read
  obtain ⟨offset, -, read⟩ := bind_eq_ok.mp read
  exact ⟨t, offset, Memory.array_eq_ok.mp found, read⟩

theorem Access.readElement_first {name : String} {t : Tensor} {n : Nat}
    (found : memory.get? name = some t) (dense : t.Dense n)
    (shape : t.shape = [1]) (values : t.values = .ok [d]) (lookup : String → Option Int) :
    (Access.element name [.constant 0]).readElement memory lookup = .ok d := by
  have array : memory.array name = .ok t := Memory.array_eq_ok.mpr found
  have located : t.locate name [0] = .ok 0 := by
    have index := @Tensor.locate_index [0] t (by rw [shape]; decide) name
    rw [dense.strides, shape] at index
    exact index
  have read : t.get 0 = .ok d := (dense.values_eq_ok.mp values).2 0 d rfl
  change (do
    let t ← memory.array name
    t.get (← t.locate name [0])) = .ok d
  rw [array, ok_bind, located, ok_bind, read]

-- An operand without dimensions in an equation on whole numbers of one type, and a literal for it.
-- The operand is an input of the function, and the argument for it holds the value of the literal.
structure LiteralOperand (e : Equation) (t : ElemType) (inputs : List Var) (args : List Argument)
    (i : Nat) (s : Scalar) : Prop where
  listed : e.primitive ∈ Arithmetic.primitives
  whole : t.isFloat = false
  typed : ∀ atom ∈ e.inputs, atom.elem = t
  proper : ∀ s, .literal s ∈ e.inputs → s.Proper
  closed : ∀ v, .var v ∈ e.inputs → v ∈ inputs
  held : ∃ (x : Var) (j : Nat) (a : Argument), e.inputs[i]? = some (.var x) ∧ x.shape = [] ∧
    inputs[j]? = some x ∧ args[j]? = some a ∧
    a.elements = .ok [s.value]
  elem : s.elem = t
  fits : s.Proper

-- The literal is the same number in kernel code as in its array, for what the primitive does to its
-- operands.
structure LiteralOperand.Exact (e : Equation) (t : ElemType) (inputs : List Var)
    (args : List Argument) (s : Scalar) : Prop where
  written : Written s.value
  ordered : t = .uint64 → e.primitive ∈ Arithmetic.ordering →
    ∀ (j : Nat) (v : Var) (a : Argument) (values : List Datum), .var v ∈ e.inputs →
    inputs[j]? = some v → args[j]? = some a → a.elements = .ok values → ∀ d ∈ values, d.Small
  wraps : t.isUnsigned = true → e.primitive ∈ Arithmetic.wrapping → ∀ v ∈ e.outputs,
    v.elem.isFloat = false

section

variable {e : Equation} {t : ElemType} {inputs : List Var} {args : List Argument} {i : Nat}
  {s : Scalar} {op : Elementwise} {ins : List String}
  {entered : Draft} {names : List (Option String)} {output : String} {opened : Draft} {m : MapNode}
    {results : List (Option String)}
  {specs : List ArgSpec} {feeds feeds' : List Feed} {given memory after : Memory}

variable {v : Var}

variable (lowers : LowersSingle op.nodes e inputs ins entered names [output] opened [.map m]
  results)
  (sound : (e.lowered [output] opened [.map m] results).Sound)
    (stages : (e.lowered [output] opened [.map m] results).Stages specs feeds feeds')
  (called : Draft.Stages.Entered (e.lowered [output] opened [.map m] results) feeds feeds' args
    given memory after)

include lowers sound stages called

theorem LowersSingle.holds_operand {j : Nat} {a : Argument} (listed : inputs[j]? = some v)
    (argument : args[j]? = some a) (whole : v.elem.isFloat = false) :
    ∃ name values, ins[j]? = some name ∧ entered.nameOf? v = some name ∧ a.elements = .ok values ∧
    HoldsOperand after name v values := by
  obtain ⟨name, array, named, mapped, -, declares, elem, shape⟩ := lowers.declares_input listed
  obtain ⟨values, elements, holds⟩ := called.holds_input stages sound (lowers.inputs_eq ▸ named)
    argument declares elem shape whole
  exact ⟨name, values, named, mapped, elements, holds⟩

theorem LiteralOperand.suits (operand : LiteralOperand e t inputs args i s)
    (exact : LiteralOperand.Exact e t inputs args s)
    (classified : t ≠ .bool → Arithmetic.Classified e.primitive formula) {array : String}
    (named : names[i]? = some (some array)) {m' : MapNode}
    (swapped : MapNode.Swapped i array s.value pieces formula names output m m')
    (counted : args.length = inputs.length) {body : Effect.MapBody} (node : body.node = m)
    (writes : body.output.array = output) (first : e.outputs[0]? = some v) :
    Effect.MapBody.Suits array s.value formula v.elem body after := by
  subst node writes
  have typed (v : Var) (member : .var v ∈ e.inputs) : v.elem = t := operand.typed (.var v) member
  -- What the map reads are inputs, and their arguments are there.
  have reads (c : String) (a : Access) (found : body.node.inputs.get? c = some a) :
    ∃ (k : Nat) (v : Var) (b : Argument), .var v ∈ e.inputs ∧
      inputs[k]? = some v ∧ ins[k]? = some a.array ∧ args[k]? = some b := by
    obtain ⟨k, v, member, listed, known⟩ :=
      lowers.operand_input operand.closed (swapped.reads c a found)
    have inside : k < args.length := by
      rw [counted]
      exact (List.getElem?_eq_some_iff.mp listed).1
    exact ⟨k, v, _, member, listed, known, getElem?_eq_getElem inside⟩
  refine ⟨fun c a found same => ?_, ?_, ?_⟩
  · obtain ⟨k, _, _, -, -, known, -⟩ := reads c a found
    obtain ⟨name, _, named, new, -⟩ := lowers.declares_output first
    cases named
    exact new (same ▸ mem_of_getElem? known)
  · obtain ⟨x, j, a, atom, scalar, listed, argument, elements⟩ := operand.held
    have elem := typed x (mem_of_getElem? atom)
    obtain ⟨name, values, -, mapped, read, n, u, found, dense, -, shape, holds⟩ :=
      lowers.holds_operand sound stages called listed argument (elem ▸ operand.whole)
    obtain ⟨name?, named', resolved⟩ := Outcome.exists_of_forall₂ lowers.resolved.flip atom
    cases named.symm.trans named'
    cases mapped.symm.trans resolved.1
    cases elements.symm.trans read
    rw [arrayShape, scalar] at shape
    exact Access.readElement_first found dense shape holds
  · cases unsigned : t.isUnsigned with
    | false =>
      exact .inl (asRead_of_signed operand.fits (operand.elem ▸ operand.whole)
        (operand.elem ▸ unsigned))
    | true =>
      have classified := classified (by rintro rfl; cases unsigned)
      refine .inr ⟨classified.shallow, fun float => ?_, fun ordered c a lookup d found read => ?_⟩
      · by_contra wraps
        have float' := exact.wraps unsigned (classified.wraps (by simpa using wraps)) v
          (mem_of_getElem? first)
        rw [float] at float'
        cases float'
      · obtain ⟨k, y, b, member, listed, known, argument⟩ := reads c a found
        have elem := typed y member
        obtain ⟨name, values, named', -, elements, n, u, found', dense, elem', -, holds⟩ :=
          lowers.holds_operand sound stages called listed argument (elem ▸ operand.whole)
        cases known.symm.trans named'
        obtain ⟨u', offset, present, got⟩ := Access.exists_of_readElement read
        cases found'.symm.trans present
        by_cases full : t = .uint64
        · exact exact.ordered full (classified.ordered ordered) k y b values member listed argument
            elements d (dense.mem_values holds got)
        · exact Tensor.small_of_get (by rw [elem', elem]; exact full) got

theorem LowersSingle.elem_output (first : e.outputs[0]? = some v) {u : Tensor}
    (found : after.get? output = some u) : u.elem = v.elem := by
  obtain ⟨name, array, named, new, declares, elem⟩ := lowers.declares_output first
  cases named
  obtain ⟨u', made, blank⟩ := called.get?_memory stages sound declares
  rw [called.get?_other stages sound (lowers.inputs_eq ▸ new), blank] at found
  cases found
  obtain ⟨_, -, -, rfl⟩ := Tensor.ofDescriptor_eq_ok.mp made
  exact elem

end

theorem MapNode.Swapped.both_states {i : Nat} {array output : String} {v : Datum} {e : Expr}
    {names : List (Option String)} {m m' : MapNode}
    (swapped : MapNode.Swapped i array v pieces e names output m m') (label : String) :
    Outcome.Both (fun fs fs' => ∃ body body' t t', fs = [Effect.skip, Effect.map body] ∧
      fs' = [Effect.skip, Effect.map body'] ∧ body.node = m ∧ body.output.array = output ∧
        Effect.MapBody.Swaps i array v pieces e t t' body body')
      ([(⟨"initial_state", []⟩ : State), ⟨label, [.map m]⟩].mapM compileState)
        ([⟨"initial_state", []⟩, ⟨label, [.map m']⟩].mapM compileState) := by
  have compiled (m : MapNode) :
    [(⟨"initial_state", []⟩ : State), ⟨label, [.map m]⟩].mapM compileState = (do
      return [Effect.skip, Effect.map (← prepare m)]) := by
    simp only [mapM_cons, mapM_nil, compileState, compileNodes, ok_bind, Outcome.pure_eq,
      bind_assoc, Effect.andThen_skip]
  rw [compiled, compiled]
  refine swapped.both_prepare.bind ?_
  rintro body body' ⟨node, writes, t, t', swaps⟩
  exact .gives ⟨body, body', t, t', rfl, rfl, node, writes, swaps⟩

theorem run_between (enter effect leave : Effect) (memory : Memory) (symbols : Symbols) :
    (enter :: ([Effect.skip, effect] ++ [leave])).foldlM
      (fun memory effect => effect memory symbols) memory = (do
      let after ← enter memory symbols
      let done ← effect after symbols
      leave done symbols) := by
  simp only [cons_append, nil_append, foldlM_cons, foldlM_nil, Effect.skip, ok_bind, bind_pure]

theorem LiteralOperand.both_call {t : ElemType} {inputs : List Var} {args : List Argument} {i : Nat}
    (operand : LiteralOperand e t inputs args i s) (exact : LiteralOperand.Exact e t inputs args s)
    (classified : t ≠ .bool → Arithmetic.Classified e.primitive formula) {d d' : Draft}
    (swapped : SwappedDrafts e op inputs i s.value pieces formula d d') (sound : d.Sound)
    {specs : List ArgSpec} {feeds feeds' : List Feed}
    (stages : d.Stages specs feeds feeds') (checked : (d.routine feeds feeds').check = .ok ())
    (checked' : (d'.routine feeds feeds').check = .ok ())
    (acyclic : (d.routine feeds feeds').graph.Acyclic) : Outcome.Both Eq
      (Executable.ofRoutine (d.routine feeds feeds') .cpu >>= fun x => x.call args)
      (Executable.ofRoutine (d'.routine feeds feeds') .cpu >>= fun x => x.call args) := by
  cases swapped with
  | @intro ins entered names array output opened results m m' lowers named swapped =>
    obtain ⟨-, -, closed, valid⟩ := Routine.check_eq_ok.mp checked
    obtain ⟨-, -, closed', valid'⟩ := Routine.check_eq_ok.mp checked'
    obtain ⟨_, v, rest, _, -, outputs, -⟩ := Elementwise.nodes_eq_ok.mp lowers.noded
    have first : e.outputs[0]? = some v := by rw [outputs]; rfl
    have renoded := @Equation.routine_lowered e [output] opened results feeds feeds' (.map m)
      (.map m')
    have acyclic' : ((e.lowered [output] opened [.map m'] results).routine feeds
      feeds').graph.Acyclic := by
      rw [renoded]
      exact acyclic
    have programs := ((lowers.row [.map m]).both_compile acyclic valid.inRange).trans
      ((swapped.both_states (e.label [output])).trans ((lowers.row [.map m']).both_compile acyclic'
        valid'.inRange).symm)
    refine (Executable.both_ofRoutine_alike closed closed' (by rw [renoded]; rfl) programs).bind ?_
    rintro x x' ⟨alike, shape, _, runs, _, ⟨body, body', t, t', rfl, rfl, node, writes, swaps⟩,
      runs'⟩
    refine alike.both_call fun given accepted => ?_
    have started' : allocate ((e.lowered [output] opened [.map m'] results).routine feeds
      feeds').graph given
        ((e.lowered [output] opened [.map m'] results).routine feeds feeds').graph.arrays.entries
          {} =
        allocate ((e.lowered [output] opened [.map m] results).routine feeds feeds').graph given
          ((e.lowered [output] opened [.map m] results).routine feeds feeds').graph.arrays.entries
            {} := by
      rw [renoded]
      exact allocate_withEdges _ _ _ _ given _ {}
    rw [runs, runs', started']
    cases started : allocate ((e.lowered [output] opened [.map m] results).routine feeds
      feeds').graph given
        ((e.lowered [output] opened [.map m] results).routine feeds feeds').graph.arrays.entries
          {} with
    | error failure => exact .fails _ _
    | ok memory =>
      rw [ok_bind, ok_bind]
      rw [run_between, run_between]
      cases copied : Feed.effect feeds memory {} with
      | error failure => exact .fails _ _
      | ok after =>
        have set := Executable.Accepted.of_accept accepted
        have called : Draft.Stages.Entered _ feeds feeds' args given memory after :=
          ⟨stages.started_of_call (congrArg Executable.graph shape)
            (congrArg Executable.inputs shape) set started, copied⟩
        have counted' : args.length = inputs.length := by
          have same : x.inputs = feeds.map Feed.array := congrArg Executable.inputs shape
          have paired := stages.counted
          rw [lowers.inputs_eq, lowers.enters.length_eq] at paired
          rw [set.counted, same, length_map, stages.enters.length_eq, length_zip, paired,
            lowers.inputs_eq, lowers.enters.length_eq, Nat.min_self]
        have suits := operand.suits lowers sound stages called exact classified named swapped
          counted' node writes first
        have typed (u : Tensor) (found : after.get? body.output.array = some u) : u.elem = v.elem :=
          lowers.elem_output sound stages called first (writes ▸ found)
        rw [ok_bind, ok_bind]
        exact .seq (.seq (Effect.both_map swaps suits typed {}) fun _ => .refl _) fun _ => .refl _

theorem Arithmetic.listed_builtin : ∀ primitive ∈ primitives,
    (RuleBook.builtin.get? primitive).isSome = true ∧ primitive ≠ "cond" ∧ primitive ≠ "pjit" := by
  decide +kernel

theorem Arithmetic.flat_of_listed (listed : e.primitive ∈ primitives) (member : op ∈ operations)
    (same : op.primitive = e.primitive) : ∃ rule, RuleBook.builtin.get? e.primitive = some rule ∧
    ∀ kit, Flat (rule.apply kit) op.nodes := by
  obtain ⟨known, cond, pjit⟩ := listed_builtin _ listed
  obtain ⟨rule, known⟩ := Option.isSome_iff_exists.mp known
  refine ⟨rule, known, ?_⟩
  rcases builtin_cases known with ⟨absurd, -⟩ | ⟨absurd, -⟩ | ⟨nodes, noded, flat⟩
  · exact (cond absurd).elim
  · exact (pjit absurd).elim
  · rw [← same, nodesOf?_operation member] at noded
    cases noded
    exact flat

theorem evaluate_withLiteral {e : Equation} {t : ElemType} {inputs : List Var}
    {args : List Argument} {i : Nat} {s : Scalar}
    (operand : LiteralOperand e t inputs args i s) (exact : LiteralOperand.Exact e t inputs args s)
    (specs : List ArgSpec) (options : Options) :
    Outcome.Both Eq ((e.over inputs).evaluate specs options args)
      (((e.withLiteral i s).over inputs).evaluate specs options args) := by
  obtain ⟨x, j, _, atom, scalar, input, -, -⟩ := operand.held
  have member := mem_of_getElem? atom
  have elem : s.elem = x.elem := operand.elem.trans (operand.typed (.var x) member).symm
  have fits : Whole s.value := operand.fits.whole (operand.elem ▸ operand.whole)
  have whole (s : Scalar) (listed : .literal s ∈ e.inputs) : Whole s.value := by
    have typed : s.elem = t := operand.typed (.literal s) listed
    exact (operand.proper s listed).whole (typed ▸ operand.whole)
  obtain ⟨op, listed, text, pieces, formula, same, swappable, known, classified⟩ :=
    Arithmetic.exists_swappable operand.listed operand.typed (ne_nil_of_mem member)
  obtain ⟨rule, ruled, flat⟩ := Arithmetic.flat_of_listed operand.listed listed same
  refine Outcome.Both.congr ?_ (Lambda.both_evaluate _ specs options args)
    (Lambda.both_evaluate _ specs options args)
  cases dropped : e.outputs.any Var.isDropped with
  | true =>
    have lowered : Outcome.Both Eq (lower .builtin (e.over inputs) none (.new 0)).1
      (lower .builtin ((e.withLiteral i s).over inputs) none (.new 0)).1 :=
      .of_not (not_succeeds_lower_dropped dropped inputs)
        (@not_succeeds_lower_dropped (e.withLiteral i s) dropped inputs)
    exact .seq lowered fun _ => .refl _
  | false =>
    have lowered := both_lower_swapped ruled flat dropped swappable known atom scalar input whole
      elem fits exact.written
    refine lowered.known.bind ?_
    rintro d d' ⟨swapped, found, -⟩
    have lowers := lowers_of_gives (gives_of_ends found)
    refine (swapped.both_toRoutine atom scalar input specs).known.bind ?_
    rintro _ _ ⟨⟨feeds, feeds', stages, rfl, rfl, checked, checked'⟩, made, -⟩
    exact operand.both_call exact classified swapped lowers.sound stages checked checked'
      (toRoutine_everywhere lowers made).here.2

theorem Argument.elements_scalar (whole : s.elem.isFloat = false) (proper : s.Proper) :
    (Argument.scalar s).elements = .ok [s.value] := by
  obtain ⟨t, made, -, -, values⟩ := Tensor.exists_ofScalar s
  have same : s.elem.recode s.value = s.value :=
    (ElemType.recode_eq_cast whole s.value).trans proper
  change (Tensor.ofScalar s).bind Tensor.values = _
  rw [made]
  exact values.trans (by rw [same])

def Equation.onScalars (primitive : String) (t result : ElemType) : Equation :=
  ⟨primitive, [.var ⟨0, .traced, [], t⟩, .var ⟨1, .traced, [], t⟩], [⟨2, .traced, [], result⟩], {},
    false⟩

def Var.scalars (t : ElemType) : List Var :=
  [⟨0, .traced, [], t⟩, ⟨1, .traced, [], t⟩]

theorem LiteralOperand.onScalars {primitive : String} (listed : primitive ∈ Arithmetic.primitives)
    {t : ElemType} (whole : t.isFloat = false)
    (result : ElemType) {other : Scalar} (elem : s.elem = t) (fits : s.Proper) :
    LiteralOperand (.onScalars primitive t result) t (Var.scalars t)
      [.scalar s, .scalar other] 0 s where
  listed := listed
  whole := whole
  typed := by simp [Equation.onScalars, Atom.elem]
  proper := by simp [Equation.onScalars]
  closed := by simp [Equation.onScalars, Var.scalars]
  held := ⟨_, 0, _, rfl, rfl, rfl, rfl, Argument.elements_scalar (elem ▸ whole) fits⟩
  elem := elem
  fits := fits

theorem evaluate_withLiteral_max :
    let small : Scalar := ⟨.uint64, .uint 9223372036854775807⟩
    let args : List Argument := [.scalar small, .scalar ⟨.uint64, .uint 3⟩]
    LiteralOperand (.onScalars "max" .uint64 .uint64) .uint64 (Var.scalars .uint64) args 0 small ∧
      LiteralOperand.Exact (.onScalars "max" .uint64 .uint64) .uint64 (Var.scalars .uint64) args
        small ∧
      Outcome.Both Eq (((Equation.onScalars "max" .uint64 .uint64).over
        (Var.scalars .uint64)).evaluate (List.replicate 2 ⟨[], .uint64, none, .cpuHeap⟩) (.all true)
          args)
        ((((Equation.onScalars "max" .uint64 .uint64).withLiteral 0 small).over
          (Var.scalars .uint64)).evaluate (List.replicate 2 ⟨[], .uint64, none, .cpuHeap⟩) (.all
            true) args) := by
  intro small args
  have operand : LiteralOperand (.onScalars "max" .uint64 .uint64) .uint64 (Var.scalars .uint64)
    args 0 small :=
    .onScalars (by decide) rfl .uint64 rfl rfl
  have first : (Argument.scalar small).elements = .ok [.uint 9223372036854775807] :=
    Argument.elements_scalar rfl rfl
  have second : (Argument.scalar ⟨.uint64, .uint 3⟩).elements = .ok [.uint 3] :=
    Argument.elements_scalar rfl rfl
  have exact : LiteralOperand.Exact (.onScalars "max" .uint64 .uint64) .uint64 (Var.scalars .uint64)
    args small := by
    refine ⟨(by decide : (9223372036854775807 : UInt64).toNat < 0x8000000000000000),
      fun _ _ j v a values _ _ argument elements => ?_, by decide⟩
    rcases j with _ | _ | j
    · cases argument
      cases first.symm.trans elements
      simp [Datum.Small]
    · cases argument
      cases second.symm.trans elements
      simp [Datum.Small]
    · cases argument
  exact ⟨operand, exact, evaluate_withLiteral operand exact _ _⟩

theorem evaluate_withLiteral_differs :
    let least : Scalar := ⟨.int64, .int Int64.minValue⟩
    let sum := Equation.onScalars "add" .int64 .int64
    let args : List Argument := [.scalar least, .scalar ⟨.int64, .int 1⟩]
    let specs : List ArgSpec := List.replicate 2 ⟨[], .int64, none, .cpuHeap⟩
    LiteralOperand sum .int64 (Var.scalars .int64) args 0 least ∧
      ¬ Outcome.Both Eq ((sum.over (Var.scalars .int64)).evaluate specs (.all false) args)
        (((sum.withLiteral 0 least).over (Var.scalars .int64)).evaluate specs (.all false)
          args) := by
  intro least sum args specs
  have runs : ((sum.over (Var.scalars .int64)).evaluate specs (.all false) args).Succeeds := by
    decide +kernel
  have fails : ¬ (((sum.withLiteral 0 least).over (Var.scalars .int64)).evaluate specs (.all false)
    args).Succeeds := by
    decide +kernel
  exact ⟨.onScalars (by decide) rfl .int64 rfl rfl, fun both => fails (both.succeeds_iff.mp runs)⟩

end TraceFlow
