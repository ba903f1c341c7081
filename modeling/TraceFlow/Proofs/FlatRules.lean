import TraceFlow.Lowering.Basic
import TraceFlow.Proofs.Dict
import TraceFlow.Proofs.LowerSteps

set_option autoImplicit false

namespace TraceFlow

open Builder List

variable {e : Equation} {names : List (Option String)} {emitted : List Node} {primitive : String}
  {outputs : List String} {output : String} {rule : Rule}

def Graph.addNodes (g : Graph) (state : Nat) : List Node → Outcome Graph
  | [] => .ok g
  | node :: rest => do (← g.addNode state node).addNodes state rest

def arrayOf (arrays : Dict Descriptor) (name : String) : Outcome Descriptor :=
  match arrays.get? name with
  | some d => .ok d
  | none => refuse (.naming s!"array '{name}' is not known")

-- Steps that emit the nodes they make from the arrays of the graph, and change nothing else.
inductive Emits (state : Nat) : LowerM (Option Nat) → (Dict Descriptor → Outcome (List Node)) → Prop
  | refuse {cause cause' : Error} : Emits state (refuse cause) fun _ => TraceFlow.refuse cause'
  | nothing : Emits state (pure none) fun _ => .ok []
  | lift {α : Type} {o : Outcome α} {next : α → LowerM (Option Nat)} {nodes : α → Dict Descriptor →
    Outcome (List Node)} :
    (∀ a, Emits state (next a) (nodes a)) → Emits state (lift o >>= next) fun arrays => o >>=
    fun a => nodes a arrays
  | array {name : String} {next : Descriptor → LowerM (Option Nat)} {nodes : Descriptor →
    Dict Descriptor → Outcome (List Node)} :
    (∀ found, Emits state (next found) (nodes found)) →
    Emits state (array name >>= next) fun arrays => arrayOf arrays name >>=
    fun found => nodes found arrays
  | emit {node : Node} {step : LowerM (Option Nat)} {nodes : Outcome (List Node)} :
    Emits state step (fun _ =>
    nodes) →
    Emits state (emit state node >>= fun _ => step) fun _ => do return node :: (← nodes)
  | guarded {c : Prop} [Decidable c] {cause cause' : Error} {next : PUnit → LowerM (Option Nat)}
    {nodes : Dict Descriptor → Outcome (List Node)} :
    Emits state (next ⟨⟩) nodes →
    Emits state (if c then (TraceFlow.refuse cause >>= next) else next ⟨⟩) fun arrays => if c then
    TraceFlow.refuse cause' else nodes arrays

theorem arrayOf_eq_ok {g : Graph} {name : String} {found : Descriptor} :
    arrayOf g.arrays name = .ok found ↔ g.array? name = some found := by
  rw [arrayOf, Graph.array?]
  cases g.arrays.get? name <;> simp [refuse]

theorem Emits.gives_iff {state : Nat} {step : LowerM (Option Nat)}
    {nodes : Dict Descriptor → Outcome (List Node)} (emits : Emits state step nodes)
    {d : Draft} {rest : List Draft} {mapped unnamed : Nat} {reported? : Option Nat} {b' : Builder} :
    Gives step ⟨d :: rest, mapped, unnamed⟩ reported? b' ↔
      reported? = none ∧ ∃ emitted g, nodes d.graph.arrays = .ok emitted ∧
        d.graph.addNodes state emitted = .ok g ∧
        b' = ⟨{ d with graph := g } :: rest, mapped, unnamed⟩ := by
  induction emits generalizing d with
  | refuse =>
    constructor
    · intro given
      exact absurd given gives_refuse
    · rintro ⟨-, _, _, ⟨⟩, -⟩
  | nothing =>
    rw [gives_pure]
    constructor
    · rintro ⟨rfl, rfl⟩
      exact ⟨rfl, [], d.graph, rfl, rfl, rfl⟩
    · rintro ⟨rfl, _, _, ⟨⟩, ⟨⟩, rfl⟩
      exact ⟨rfl, rfl⟩
  | lift _ ih =>
    simp only [gives_bind, gives_lift, bind_eq_ok]
    constructor
    · rintro ⟨a, _, ⟨made, rfl⟩, given⟩
      obtain ⟨none, emitted, g, noded, added⟩ := (ih a).mp given
      exact ⟨none, emitted, g, ⟨a, made, noded⟩, added⟩
    · rintro ⟨none, emitted, g, ⟨a, made, noded⟩, added⟩
      exact ⟨a, _, ⟨made, rfl⟩, (ih a).mpr ⟨none, emitted, g, noded, added⟩⟩
  | array _ ih =>
    simp only [gives_bind, gives_array, ← arrayOf_eq_ok, bind_eq_ok]
    constructor
    · rintro ⟨found, _, ⟨present, rfl⟩, given⟩
      obtain ⟨none, emitted, g, noded, added⟩ := (ih found).mp given
      exact ⟨none, emitted, g, ⟨found, present, noded⟩, added⟩
    · rintro ⟨none, emitted, g, ⟨found, present, noded⟩, added⟩
      exact ⟨found, _, ⟨present, rfl⟩, (ih found).mpr ⟨none, emitted, g, noded, added⟩⟩
  | @emit node _ _ _ ih =>
    simp only [gives_bind, gives_emit, bind_eq_ok, Outcome.pure_eq, Except.ok.injEq]
    constructor
    · rintro ⟨-, _, ⟨g, added, rfl⟩, given⟩
      obtain ⟨none, emitted, g', noded, others, rfl⟩ := ih.mp given
      refine ⟨none, node :: emitted, g', ⟨emitted, noded, rfl⟩, ?_, rfl⟩
      rw [Graph.addNodes, bind_eq_ok]
      exact ⟨g, added, others⟩
    · rintro ⟨none, _, g', ⟨emitted, noded, rfl⟩, added, rfl⟩
      rw [Graph.addNodes, bind_eq_ok] at added
      obtain ⟨g, added, others⟩ := added
      exact ⟨(), _, ⟨g, added, rfl⟩, ih.mpr ⟨none, emitted, g', noded, others, rfl⟩⟩
  | @guarded c _ _ _ _ _ _ ih =>
    rw [gives_unless, ih]
    by_cases fails : c <;> simp [fails, TraceFlow.refuse]

abbrev Nodes := Dict Descriptor → List (Option String) → List String → Equation → Outcome
    (List Node)

def Flat (apply : Apply) (nodes : Nodes) : Prop :=
  ∀ names outputs e state, Emits state (apply names outputs e state) fun arrays => nodes arrays
    names outputs e

def outputOf (outputs : List String) (e : Equation) : Outcome (String × Var) :=
  match outputs, e.outputs with
  | name :: _, v :: _ => .ok (name, v)
  | _, _ => .error (.fault .outOfRange)

theorem firstOutput_eq (outputs : List String) (e : Equation) : firstOutput outputs e = lift
    (outputOf outputs e) := by
  unfold firstOutput outputOf
  rcases outputs with _ | ⟨name, names⟩
  · rfl
  · rcases e.outputs with _ | ⟨v, vs⟩ <;> rfl

namespace Elementwise

def nodes (op : Elementwise) : Nodes := fun _ names outputs e =>
  match outputs, e.outputs with
  | [output], v :: _ => do return [.map (← op.node names output v e)]
  | _, _ =>
    refuse (.invariant s!"'{op.primitive}' expects exactly one output, got {outputs.length}")

theorem flat (op : Elementwise) : Flat op.apply op.nodes := by
  intro names outputs e state
  unfold apply nodes
  rcases outputs with _ | ⟨output, _ | ⟨second, others⟩⟩
  · exact .refuse
  · rcases e.outputs with _ | ⟨v, vs⟩
    · exact .refuse
    · exact .lift fun _ => .emit .nothing
  · exact .refuse

end Elementwise

namespace Gather

def nodes : Nodes := fun _ names outputs e =>
  match names, e.inputs with
  | [some source, some index], [sourceAtom, indexAtom] => do
    let (output, v) ← outputOf outputs e
    let plan ← Plan.ofParams e.params
    return [.map (← node plan source index output sourceAtom.shape indexAtom.shape v.shape)]
  | _, _ => refuse (.unsupported "gather needs exactly a source and an index array")

theorem flat : Flat apply nodes := by
  intro names outputs e state
  unfold apply nodes
  rw [firstOutput_eq]
  generalize e.inputs = atoms
  rcases names with _ | ⟨_ | source, names⟩
  · exact .refuse
  · exact .refuse
  · rcases names with _ | ⟨_ | index, _ | ⟨third, names⟩⟩
    · exact .refuse
    · exact .refuse
    · exact .refuse
    · rcases atoms with _ | ⟨sourceAtom, _ | ⟨indexAtom, _ | ⟨third, others⟩⟩⟩
      · exact .refuse
      · exact .refuse
      · exact .lift fun _ => .lift fun _ => .lift fun _ => .emit .nothing
      · exact .refuse
    · exact .refuse

end Gather

namespace Movement

def reshapeNodes : Nodes := fun arrays names outputs e =>
  if !Params.isNone e.params "dimensions" then refuse (.unsupported "reshape with 'dimensions' set")
  else match names with
    | some source :: _ => do
      let sourceArray ← arrayOf arrays source
      let (output, _) ← outputOf outputs e
      let outputArray ← arrayOf arrays output
      return [.copy (.full source sourceArray) (.full output outputArray)]
    | _ => refuse (.unsupported "reshape of a literal")

theorem flat_reshape : Flat reshape reshapeNodes := by
  intro names outputs e state
  unfold reshape reshapeNodes
  refine .guarded ?_
  rcases names with _ | ⟨_ | source, names⟩
  · exact .refuse
  · exact .refuse
  · rw [firstOutput_eq]
    exact .array fun _ => .lift fun _ => .array fun _ => .emit .nothing

def partNodes (output : String) (dim : Nat) : Int → List (String × Atom) → Outcome (List Node)
  | _, [] => .ok []
  | offset, (name, atom) :: rest => do
    let part ← concatenated output name dim offset atom.shape
    let others ← checkIndex (offset + signedWord (atom.shape.getD dim 0)) >>=
      fun next => partNodes output dim next rest
    return .map part :: others

theorem emits_concatenateParts (output : String) (dim state : Nat) (offset : Int)
    (parts : List (String × Atom)) :
    Emits state (concatenateParts output dim state offset parts >>= fun _ => pure none)
      (fun _ => partNodes output dim offset parts) := by
  induction parts generalizing offset with
  | nil => exact .nothing
  | cons part rest ih =>
    simp only [concatenateParts, bind_assoc]
    exact .lift fun _ => .emit (.lift fun _ => ih _)

def concatenateNodes : Nodes := fun _ names outputs e =>
  if names.any Option.isNone then refuse (.unsupported "concatenate with literal inputs")
  else do
    let dim ← Params.size e.params "dimension"
    let (output, v) ← outputOf outputs e
    if dim ≥ v.shape.length then
      refuse (.invariant s!"concatenation dimension {dim} exceeds the output rank")
    else partNodes output dim 0 ((names.filterMap id).zip e.inputs)

theorem flat_concatenate : Flat concatenate concatenateNodes := by
  intro names outputs e state
  unfold concatenate concatenateNodes
  rw [firstOutput_eq]
  exact .guarded (.lift fun _ => .lift fun _ => .guarded (emits_concatenateParts _ _ _ _ _))

def windowNode (output source : String) (shape : List Nat) (index : List Index)
    (dynamic : Dict Access) : MapNode where
  label := "dynamic_slice_" ++ output
  axes := Elementwise.axes shape
  inputs := Dict.ofList [("__in", .element source (orScalar index))]
  dynamic
  code := "__out = __in"
  outputs := Dict.ofList [("__out", .element output (Elementwise.target shape))]

def dynamicSliceNodes : Nodes := fun _ names outputs e =>
  match names, e.inputs with
  | some source :: starts, operand :: atoms =>
    if starts.length ≠ operand.shape.length then
      refuse (.invariant (s!"dynamic_slice of a rank {operand.shape.length} operand needs " ++
        s!"{operand.shape.length} start indices, got {starts.length}"))
    else do
      let (output, v) ← outputOf outputs e
      let (index, dynamic) ← windowIndex output (Elementwise.axes v.shape) 0 (starts.zip atoms)
      return [.map (windowNode output source v.shape index dynamic)]
  | _, _ => refuse (.unsupported "dynamic_slice of a literal")

theorem flat_dynamicSlice : Flat dynamicSlice dynamicSliceNodes := by
  intro names outputs e state
  unfold dynamicSlice dynamicSliceNodes
  rw [firstOutput_eq]
  generalize e.inputs = atoms
  rcases names with _ | ⟨_ | source, starts⟩
  · exact .refuse
  · exact .refuse
  · rcases atoms with _ | ⟨operand, atoms⟩
    · exact .refuse
    · exact .guarded (.lift fun _ => .lift fun _ => .emit .nothing)

end Movement

def operations : List Elementwise :=
  Arithmetic.kernels.map (fun (primitive, text) => Arithmetic.operation primitive text) ++
    Arithmetic.logicalKernels.map (fun (primitive, bitwise, truth) => Arithmetic.logical primitive
      bitwise truth) ++
    [Movement.broadcast, Movement.convert, Movement.copy, Movement.devicePut, Movement.iota,
      Movement.select,
      Movement.slice, Movement.squeeze]

-- What the rule of a primitive emits, unless it nests functions.
def nodesOf? (primitive : String) : Option Nodes :=
  if primitive = "gather" then some Gather.nodes
  else if primitive = "concatenate" then some Movement.concatenateNodes
  else if primitive = "dynamic_slice" then some Movement.dynamicSliceNodes
  else if primitive = "reshape" then some Movement.reshapeNodes
  else (operations.find? fun op => op.primitive = primitive).map Elementwise.nodes

theorem nodup_operations : (operations.map Elementwise.primitive).Nodup := by
  decide +kernel

theorem nodesOf?_operation {op : Elementwise} (member : op ∈ operations) :
    nodesOf? op.primitive = some op.nodes := by
  have others : ∀ primitive ∈ operations.map Elementwise.primitive,
      primitive ≠ "gather" ∧ primitive ≠ "concatenate" ∧ primitive ≠ "dynamic_slice" ∧
      primitive ≠ "reshape" := by
    decide +kernel
  obtain ⟨one, two, three, four⟩ := others _ (mem_map_of_mem member)
  have found : operations.find? (fun other => other.primitive = op.primitive) = some op := by
    rw [find?_eq_some_iff_append]
    obtain ⟨before, after, split⟩ := append_of_mem member
    refine ⟨by simp, before, after, split, ?_⟩
    have distinct := nodup_operations
    rw [split, map_append, map_cons] at distinct
    intro other earlier
    have apart := (nodup_append.mp distinct).2.2 _ (mem_map_of_mem earlier) _ mem_cons_self
    simpa using apart
  simp [nodesOf?, one, two, three, four, found]

-- The nodes that flat rules emit, one kind for each rule.
inductive Emitted (names : List (Option String)) (outputs : List String) (e : Equation) :
    Node → Prop
  | elementwise {op : Elementwise} {output : String} {v : Var} {m : MapNode} :
    op ∈ operations → e.primitive = op.primitive → output ∈ outputs →
    op.node names output v e = .ok m → Emitted names outputs e (.map m)
  | patch {plan : Gather.Plan} {source index output : String}
    {sourceShape indexShape shape : List Nat} {m : MapNode} :
    names = [some source, some index] → output ∈ outputs →
    Gather.node plan source index output sourceShape indexShape shape = .ok m →
    Emitted names outputs e (.map m)
  | part {name output : String} {dim : Nat} {offset : Int} {shape : List Nat} {m : MapNode} :
    some name ∈ names → output ∈ outputs →
    Movement.concatenated output name dim offset shape = .ok m → Emitted names outputs e (.map m)
  | window {source output : String} {starts : List (Option String)} {atoms : List Atom}
    {shape : List Nat} {index : List Index} {dynamic : Dict Access} :
    names = some source :: starts → output ∈ outputs →
    Movement.windowIndex output (Elementwise.axes shape) 0 (starts.zip atoms) = .ok (index,
      dynamic) →
    Emitted names outputs e (.map (Movement.windowNode output source shape index dynamic))
  | copied {source output : String} {array array' : Descriptor} :
    output ∈ outputs → Emitted names outputs e (.copy (.full source array) (.full output array'))

theorem mem_of_outputOf {v : Var} (first : outputOf outputs e = .ok (output, v)) :
    output ∈ outputs := by
  unfold outputOf at first
  split at first
  · cases first
    exact mem_cons_self
  · cases first

theorem emitted_parts (here : output ∈ outputs) {dim : Nat} {offset : Int}
    {parts : List (String × Atom)} (given : ∀ part ∈ parts, some part.1 ∈ names)
    (made : Movement.partNodes output dim offset parts = .ok emitted) :
    ∀ node ∈ emitted, Emitted names outputs e node := by
  induction parts generalizing offset emitted with
  | nil =>
    cases made
    simp
  | cons part rest ih =>
    obtain ⟨m, first, made⟩ := bind_eq_ok.mp made
    obtain ⟨others, later, made⟩ := bind_eq_ok.mp made
    obtain ⟨next, -, later⟩ := bind_eq_ok.mp later
    cases made
    obtain ⟨known, given⟩ := forall_mem_cons.mp given
    exact forall_mem_cons.mpr ⟨.part known here first, ih given later⟩

theorem emitted_of_nodes {nodes : Nodes} (known : nodesOf? e.primitive = some nodes)
    {arrays : Dict Descriptor} (made : nodes arrays names outputs e = .ok emitted) :
    ∀ node ∈ emitted, Emitted names outputs e node := by
  unfold nodesOf? at known
  split at known
  · cases known
    unfold Gather.nodes at made
    split at made
    · obtain ⟨⟨output, v⟩, first, made⟩ := bind_eq_ok.mp made
      obtain ⟨plan, -, made⟩ := bind_eq_ok.mp made
      obtain ⟨m, noded, made⟩ := bind_eq_ok.mp made
      cases made
      exact forall_mem_singleton.mpr (.patch rfl (mem_of_outputOf first) noded)
    · cases made
  split at known
  · cases known
    unfold Movement.concatenateNodes at made
    split at made
    · cases made
    obtain ⟨dim, -, made⟩ := bind_eq_ok.mp made
    obtain ⟨⟨output, v⟩, first, made⟩ := bind_eq_ok.mp made
    dsimp only at made
    split at made
    · cases made
    · refine emitted_parts (mem_of_outputOf first) (fun part listed => ?_) made
      simpa using (of_mem_zip listed).1
  split at known
  · cases known
    unfold Movement.dynamicSliceNodes at made
    split at made
    · split at made
      · cases made
      · obtain ⟨⟨output, v⟩, first, made⟩ := bind_eq_ok.mp made
        obtain ⟨⟨index, fetched⟩, window, made⟩ := bind_eq_ok.mp made
        cases made
        exact forall_mem_singleton.mpr (.window rfl (mem_of_outputOf first) window)
    · cases made
  split at known
  · cases known
    unfold Movement.reshapeNodes at made
    split at made
    · cases made
    split at made
    · obtain ⟨source, -, made⟩ := bind_eq_ok.mp made
      obtain ⟨⟨output, v⟩, first, made⟩ := bind_eq_ok.mp made
      obtain ⟨target, -, made⟩ := bind_eq_ok.mp made
      cases made
      exact forall_mem_singleton.mpr (.copied (mem_of_outputOf first))
    · cases made
  obtain ⟨op, found, rfl⟩ := Option.map_eq_some_iff.mp known
  have named : op.primitive = e.primitive := by simpa using find?_some found
  unfold Elementwise.nodes at made
  split at made
  · obtain ⟨m, noded, made⟩ := bind_eq_ok.mp made
    cases made
    exact forall_mem_singleton.mpr (.elementwise (mem_of_find?_eq_some found) named.symm
      mem_cons_self noded)
  · cases made

theorem builtin_listed (known : RuleBook.builtin.get? primitive = some rule) :
    rule.primitive = primitive ∧
    ((∃ op ∈ operations, rule = op.rule) ∨ rule = ⟨"concatenate", fun _ => Movement.concatenate⟩ ∨
      rule = ⟨"dynamic_slice", fun _ => Movement.dynamicSlice⟩ ∨
      rule = ⟨"reshape", fun _ => Movement.reshape⟩ ∨
      rule = Gather.rule ∨ rule = ⟨"cond", Nested.cond⟩ ∨ rule = ⟨"pjit", Nested.call⟩) := by
  have member : (primitive, rule) ∈ (Arithmetic.rules ++ Movement.rules ++ [Gather.rule] ++
    Nested.rules).map
      fun rule => (rule.primitive, rule) := Dict.mem_of_get?_ofList known
  obtain ⟨_, listed, ⟨⟩⟩ := mem_map.mp member
  refine ⟨rfl, ?_⟩
  simp only [Arithmetic.rules, Movement.rules, Nested.rules, mem_append, mem_map, mem_cons,
    not_mem_nil, or_false] at listed
  simp only [operations, mem_append, mem_map, mem_cons, not_mem_nil, or_false]
  grind

theorem builtin_cases (known : RuleBook.builtin.get? primitive = some rule) :
    (primitive = "cond" ∧ rule.apply = Nested.cond) ∨
    (primitive = "pjit" ∧ rule.apply = Nested.call) ∨
      ∃ nodes, nodesOf? primitive = some nodes ∧ ∀ kit, Flat (rule.apply kit) nodes := by
  obtain ⟨rfl, cases⟩ := builtin_listed known
  rcases cases with ⟨op, operation, rfl⟩ | rfl | rfl | rfl | rfl | rfl | rfl
  · exact .inr (.inr ⟨op.nodes, nodesOf?_operation operation, fun _ => op.flat⟩)
  · exact .inr (.inr ⟨_, rfl, fun _ => Movement.flat_concatenate⟩)
  · exact .inr (.inr ⟨_, rfl, fun _ => Movement.flat_dynamicSlice⟩)
  · exact .inr (.inr ⟨_, rfl, fun _ => Movement.flat_reshape⟩)
  · exact .inr (.inr ⟨_, rfl, fun _ => Gather.flat⟩)
  · exact .inl ⟨rfl, rfl⟩
  · exact .inr (.inl ⟨rfl, rfl⟩)

end TraceFlow
