import TraceFlow.Proofs.BuilderHistory
import TraceFlow.Proofs.ClosedGraphs
import TraceFlow.Proofs.Relayouts
import TraceFlow.Proofs.TemplatePieces

set_option autoImplicit false

namespace TraceFlow

open Builder Lowering Outcome

variable {α β : Type}

namespace Outcome

-- An outcome that is no index out of range.
def Within (o : Outcome α) : Prop :=
  o ≠ .error (.fault .outOfRange)

variable {o o' : Outcome α} {xs : List α}

@[simp] theorem within_ok (a : α) : Within (.ok a) :=
  nofun

@[simp] theorem within_refuse (cause : Error) : Within (refuse cause : Outcome α) :=
  nofun

@[simp] theorem within_error {failure : Failure} : Within (.error failure : Outcome α) ↔
    failure ≠ .fault .outOfRange := by
  simp [Within]

@[simp] theorem refuse_ne_ok (cause : Error) (a : α) : (refuse cause : Outcome α) ≠ .ok a :=
  nofun

@[simp] theorem within_bind {next : α → Outcome β} : Within (o >>= next) ↔ Within o ∧ ∀ a,
    o = .ok a → Within (next a) := by
  rcases o with failure | a <;> simp [Within, error_bind, ok_bind]

@[simp] theorem within_ite {c : Prop} [Decidable c] : Within (if c then o else o') ↔
    (c → Within o) ∧ (¬ c → Within o') := by
  split <;> simp_all

@[simp] theorem within_mapM {f : α → Outcome β} (each : ∀ x ∈ xs, Within (f x)) :
    Within (xs.mapM f) := by
  induction xs with
  | nil => exact within_ok _
  | cons x rest ih =>
    rw [List.mapM_cons]
    simp_all

@[simp] theorem within_forM {f : α → Outcome PUnit} (each : ∀ x ∈ xs, Within (f x)) :
    Within (forM xs f) := by
  induction xs with
  | nil => exact within_ok _
  | cons x rest ih => simp_all [List.forM_cons]

@[simp] theorem within_foldlM {f : β → α → Outcome β} (step : ∀ b x, Within (f b x)) (b : β) :
    Within (xs.foldlM f b) := by
  induction xs generalizing b with
  | nil => exact within_ok _
  | cons x rest ih => simp_all

end Outcome

@[simp] theorem within_checkSize (n : Nat) : Within (checkSize n) := by
  simp [checkSize]

@[simp] theorem within_checkIndex (i : Int) : Within (checkIndex i) := by
  simp [checkIndex]

@[simp] theorem within_sizeProduct (sizes : List Nat) : Within (sizeProduct sizes) := by
  simp [sizeProduct]

@[simp] theorem within_rangeExtent (low high : Int) : Within (rangeExtent low high) := by
  simp [rangeExtent]

@[simp] theorem within_dense (shape : List Nat) (elem : ElemType) :
    Within (Descriptor.dense shape elem) := by
  simp [Descriptor.dense, Shape.denseStrides]

@[simp] theorem Descriptor.within_text (d : Descriptor) : Within d.text := by
  simp [Descriptor.text, Descriptor.isRowMajor, Shape.denseStrides]

@[simp] theorem Index.within_plus (index : Index) (offset : Int) : Within (index.plus offset) := by
  simp [Index.plus]

@[simp] theorem Access.within_text (access : Access) : Within access.text := by
  have each (s : Subscript) : Within s.text := by
    cases s <;> simp [Subscript.text, Index.text]
  simp [text, each]

@[simp] theorem Access.within_volume (access : Access) : Within access.volume := by
  have each (s : Subscript) : Within s.extent := by
    cases s <;> simp [Subscript.extent]
  simp [volume, each]

namespace Graph

@[simp] theorem within_checkAccess (g : Graph) (locals : List String) (access : Access) :
    Within (checkAccess g locals access) := by
  have subscripts (dim : Nat) (pairs : List (Subscript × Nat)) :
    Within (checkSubscripts g locals access dim pairs) := by
    induction pairs generalizing dim with
    | nil => exact within_ok _
    | cons pair rest ih => simp [checkSubscripts, invalid, ih]
  unfold checkAccess
  split <;> simp [invalid, subscripts]

@[simp] theorem within_checkStates (g : Graph) : Within (checkStates g) := by
  have binding (symbol : String) (binding : Binding) : Within (checkBinding g symbol binding) := by
    cases binding <;> simp [checkBinding, invalid]
  simp [checkStates, checkEdge, invalid, binding]

@[simp] theorem within_checkCopy (g : Graph) (id : Nat) (source target : Access) :
    Within (checkCopy g id source target) := by
  simp [checkCopy, invalid]

@[simp] theorem within_checkMap (g : Graph) (id : Nat) (m : MapNode) :
    Within (checkMap g id m) := by
  have axes (place : String) (params : List String) (axes : List Axis) :
    Within (checkAxes place params axes) := by
    induction axes generalizing params with
    | nil => exact within_ok _
    | cons axis rest ih => simp [checkAxes, invalid, ih]
  simp [checkMap, invalid, axes]

@[simp] theorem within_checkCall (g : Graph) (id : Nat) (site : CallSite) (callee : Graph) :
    Within (checkCall g id site callee) := by
  have connector (place inner outer : String) :
    Within (checkConnector g callee place inner outer) := by
    unfold checkConnector
    split <;> simp [invalid, Descriptor.count]
  simp [checkCall, invalid, connector]

@[simp] theorem within_checkSignature (g : Graph) : Within (checkSignature g) := by
  have arguments (seen names : List String) : Within (checkArguments g seen names) := by
    induction names generalizing seen with
    | nil => exact within_ok _
    | cons name rest ih =>
      simp only [checkArguments, checkArgument, within_bind, ih]
      cases g.array? name <;> simp [invalid]
  simp [checkSignature, invalid, arguments]

@[simp] theorem within_checkConstant (g : Graph) (name : String) :
    Within (checkConstant g name) := by
  unfold checkConstant
  split <;> simp [invalid]

mutual

theorem within_check : (g : Graph) → Within g.check
  | ⟨_, _, _, _, states, _, _, _⟩ => by simp [check, within_checkStateList]

theorem within_checkStateList (g : Graph) (id : Nat) : (states : List State) → Within
    (checkStateList g id states)
  | [] => within_ok _
  | ⟨_, nodes⟩ :: rest => by
    simp [checkStateList, within_checkNodes g id nodes, within_checkStateList g (id + 1) rest]

theorem within_checkNodes (g : Graph) (id : Nat) : (nodes : List Node) → Within
    (checkNodes g id nodes)
  | [] => within_ok _
  | .copy _ _ :: rest => by simp [checkNodes, within_checkNodes g id rest]
  | .map _ :: rest => by simp [checkNodes, within_checkNodes g id rest]
  | .call _ callee :: rest => by simp [checkNodes, within_check callee, within_checkNodes g id rest]

end

end Graph

namespace Draft

@[simp] theorem within_check (d : Draft) : Within d.check := by
  have names (role : String) (names? : Option (List String)) :
    Within (d.checkNames role names?) := by
    unfold checkNames
    split <;> simp [broken]
  simp [check, broken, names]

@[simp] theorem within_finish (d : Draft) (validate : Bool) : Within (d.finish validate) := by
  have signature : Within d.signature := by
    unfold Draft.signature
    split <;> simp
  have expose (g : Graph) (names : List String) : Within (g.expose names) := by
    induction names generalizing g with
    | nil => exact within_ok _
    | cons name rest ih => simp [Graph.expose, ih]
  simp [finish, signature, expose, Routine.check, Routine.checkRole, Graph.invalid,
    Graph.within_check]

end Draft

namespace Params

variable (ps : Params) (name : String)

theorem within_reading {read : Param → Outcome α} (each : ∀ p, Within (read p)) :
    Within (ps.require name >>= read) := by
  unfold Params.require
  split <;> simp [each]

@[simp] theorem within_int : Within (ps.int name) :=
  within_reading ps name fun p => by cases p <;> simp [mismatch]

@[simp] theorem within_str : Within (ps.str name) :=
  within_reading ps name fun p => by cases p <;> simp [mismatch]

@[simp] theorem within_ints : Within (ps.ints name) :=
  within_reading ps name fun p => by cases p <;> simp [mismatch]

@[simp] theorem within_lambda : Within (ps.lambda name) :=
  within_reading ps name fun p => by cases p <;> simp [mismatch]

@[simp] theorem within_lambdas : Within (ps.lambdas name) :=
  within_reading ps name fun p => by cases p <;> simp [mismatch]

@[simp] theorem within_size : Within (ps.size name) := by
  simp [Params.size]

@[simp] theorem within_sizes : Within (ps.sizes name) := by
  simp [Params.sizes]

end Params

@[simp] theorem Template.within_pieces (t : Template) : Within t.pieces := by
  unfold pieces
  split <;> simp

@[simp] theorem Template.within_render (t : Template) : Within t.render := by
  have filled (piece : Piece) : Within (t.fillPiece piece) := by
    unfold fillPiece
    split
    · simp
    · dsimp only
      split <;> simp
  simp [render, filled]

namespace Elementwise

-- An operation whose texts and reads are within range for as many names as there are inputs.
structure Within (op : Elementwise) : Prop where
  kernel (axes : List Axis) (names : List (Option String)) (e : Equation) :
    (op.kernel axes names e).Within
  reads : ∀ reads ∈ op.reads?, ∀ (axes : List Axis) (names : List (Option String)) (e : Equation),
    names.length = e.inputs.length →
    (reads axes names e).Within

@[simp] theorem within_defaultReads (op : Elementwise) (axes : List Axis)
    (names : List (Option String)) (e : Equation) (target : List Nat) :
    (op.defaultReads axes names e target).Within := by
  have index (source extents outers : List Nat) (axes : List Axis) :
    (broadcastIndex source target extents outers axes).Within := by
    fun_induction broadcastIndex source target extents outers axes <;>
      simp_all +zetaDelta [cannotBroadcast]
  have reads (i : Nat) (pairs : List (Option String × Atom)) :
    (defaultReadsFrom axes target op.connector i pairs).Within := by
    fun_induction defaultReadsFrom axes target op.connector i pairs <;> simp_all [defaultIndex]
  unfold defaultReads
  split <;> simp [cannotBroadcast, reads]

theorem Within.node {op : Elementwise} (within : op.Within) {names : List (Option String)}
    {e : Equation} (counted : names.length = e.inputs.length)
    (output : String) (v : Var) : (op.node names output v e).Within := by
  have bound (i : Nat) (pairs : List (Option String × Atom)) (t : Template) :
    (bindInputs op.connector i pairs t).Within := by
    induction pairs generalizing i t with
    | nil => exact within_ok _
    | cons pair rest ih => rcases pair with ⟨_ | name, _ | s⟩ <;> simp [bindInputs, ih]
  unfold Elementwise.node
  cases given : op.reads? with
  | none => simp [within.kernel, bound]
  | some reads => simp [within.kernel, bound, within.reads reads given _ _ _ counted]

end Elementwise

namespace Movement

@[simp] theorem within_broadcastIndex (axes : List Axis) (pairs : List (Nat × Nat)) :
    Within (broadcastIndex axes pairs) := by
  fun_induction broadcastIndex axes pairs <;> simp_all +zetaDelta [Axis.extent]

@[simp] theorem within_shiftedIndex (axes : List Axis) (starts : List Int) :
    Within (shiftedIndex axes starts) := by
  fun_induction shiftedIndex axes starts <;> simp_all

@[simp] theorem within_squeezedIndex (removed : List Nat) (axes : List Axis) (dim : Nat)
    (shape : List Nat) : Within (squeezedIndex removed axes dim shape) := by
  fun_induction squeezedIndex removed axes dim shape <;> simp_all

theorem within_firstShape {name? : Option String} {names : List (Option String)} {e : Equation}
    (counted : (name? :: names).length = e.inputs.length) : Within (firstShape e) := by
  unfold firstShape
  split <;> simp_all

end Movement

@[simp] theorem Arithmetic.within_bindParams (params : Params) (slots : List String)
    (t : Template) : Within (bindParams params slots t) := by
  have text (slot : String) : Within (paramText params slot) := by
    unfold paramText
    split <;> simp
  fun_induction bindParams params slots t <;> simp_all

theorem within_operations : ∀ op ∈ operations, op.Within := by
  intro op member
  simp only [operations, List.mem_append, List.mem_map, List.mem_cons, List.not_mem_nil,
    or_false] at member
  rcases member with (⟨_, -, rfl⟩ | ⟨_, -, rfl⟩) | rfl | rfl | rfl | rfl | rfl | rfl | rfl | rfl
  · exact ⟨by simp [Arithmetic.operation, Template.slots], by rintro _ ⟨⟩⟩
  · exact ⟨by simp [Arithmetic.logical], by rintro _ ⟨⟩⟩
  · refine ⟨by simp [Movement.broadcast], ?_⟩
    rintro _ ⟨⟩ axes names e counted
    rcases names with _ | ⟨_ | name, names⟩
    · simp
    · simp
    · simp [Movement.within_firstShape counted]
  · refine ⟨fun _ names e => ?_, by rintro _ ⟨⟩⟩
    unfold Movement.convert
    dsimp only
    split <;> simp
  · exact ⟨by simp [Movement.copy, Elementwise.ofText], by rintro _ ⟨⟩⟩
  · exact ⟨by simp [Movement.devicePut], by rintro _ ⟨⟩⟩
  · refine ⟨fun axes _ e => ?_, by simp [Movement.iota]⟩
    simp only [Movement.iota, within_bind, Params.within_size, true_and]
    intro dim _
    split <;> simp
  · refine ⟨fun _ names _ => ?_, by rintro _ ⟨⟩⟩
    unfold Movement.select
    dsimp only
    split <;> simp
  · refine ⟨by simp [Movement.slice], ?_⟩
    rintro _ ⟨⟩ axes names e counted
    rcases names with _ | ⟨_ | name, names⟩
    · simp
    · simp
    · simp [Movement.within_firstShape counted]
  · refine ⟨by simp [Movement.squeeze], ?_⟩
    rintro _ ⟨⟩ axes names e counted
    rcases names with _ | ⟨_ | name, names⟩
    · simp
    · simp
    · simp [Movement.within_firstShape counted]

-- What the rule of an equation indexes is there, unless the rule refuses the equation before.
structure Equation.Indexed (e : Equation) : Prop where
  reshaped : e.primitive = "reshape" → Params.isNone e.params "dimensions" = true →
    ∀ operand ∈ e.inputs.head?, operand.isLiteral = false → ∃ v, v ∈ e.outputs.head?
  gathered : e.primitive = "gather" → e.inputs.length = 2 →
    (∀ atom ∈ e.inputs, atom.isLiteral = false) → ∃ v, v ∈ e.outputs.head?
  joined : e.primitive = "concatenate" → (∀ atom ∈ e.inputs, atom.isLiteral = false) →
    ∀ dim, Params.size e.params "dimension" = .ok dim → ∃ v ∈ e.outputs.head?,
    dim < v.shape.length → ∀ atom ∈ e.inputs, dim < atom.shape.length
  moved : e.primitive = "dynamic_slice" → ∀ operand ∈ e.inputs.head?, operand.isLiteral = false →
    e.inputs.length = operand.shape.length + 1 → ∃ v ∈ e.outputs.head?,
    operand.shape.length ≤ max v.shape.length 1
  constants : ∀ f ∈ e.nested, ∀ t ∈ f.consts, t.Built

section Nodes

variable {e : Equation} {names : List (Option String)} {outputs : List String}

theorem exists_outputOf {v : Var} (head : v ∈ e.outputs.head?)
    (counted : outputs.length = e.outputs.length) :
    ∃ output, outputOf outputs e = .ok (output, v) := by
  unfold outputOf
  cases listed : e.outputs <;> cases outputs <;> simp_all

theorem Movement.within_partNodes {output : String} {dim : Nat} {parts : List (String × Atom)}
    (there : ∀ part ∈ parts, dim < part.2.shape.length) (offset : Int) :
    Within (partNodes output dim offset parts) := by
  induction parts generalizing offset with
  | nil => exact within_ok _
  | cons part rest ih =>
    obtain ⟨here, there⟩ := List.forall_mem_cons.mp there
    simp [partNodes, concatenated, List.getElem?_eq_getElem here, ih there]

theorem Movement.within_windowIndex (output : String) (axes : List Axis) (dim : Nat)
    (pairs : List (Option String × Atom)) (there : dim + pairs.length ≤ axes.length) :
    Within (windowIndex output axes dim pairs) := by
  induction pairs generalizing dim with
  | nil => exact within_ok _
  | cons pair rest ih =>
    rw [List.length_cons] at there
    have later := ih (dim + 1) (by omega)
    unfold windowIndex
    rw [List.getElem?_eq_getElem (by omega)]
    dsimp only
    split <;> simp [later]

namespace Gather

@[simp] theorem within_subscripts (p : Plan) (dim : Nat) (pairs : List (Nat × Nat)) :
    Within (p.subscripts dim pairs) := by
  induction pairs generalizing dim with
  | nil => exact within_ok _
  | cons pair rest ih => simp [Plan.subscripts, ih]

@[simp] theorem within_target (output : String) (batch dims kept : List Nat) :
    Within (target output batch dims kept) := by
  fun_induction target output batch dims kept <;> simp_all

theorem within_nodes (arrays : Dict Descriptor)
    (matched : names.map Option.isNone = e.inputs.map Atom.isLiteral)
    (first : e.inputs.length = 2 → (∀ atom ∈ e.inputs, atom.isLiteral = false) →
      ∃ output v, outputOf outputs e = .ok (output, v)) :
    Within (nodes arrays names outputs e) := by
  unfold nodes
  split
  next listed =>
    obtain ⟨output, v, first⟩ := first (by rw [listed]; rfl) (by simpa [listed] using matched)
    simp [first, Plan.ofParams, node, Plan.check]
  · simp

end Gather

@[simp] theorem within_arrayOf (arrays : Dict Descriptor) (name : String) :
    Within (arrayOf arrays name) := by
  unfold arrayOf
  split <;> simp

theorem Equation.Indexed.nodes (indexed : e.Indexed) {nodes : Nodes}
    (known : nodesOf? e.primitive = some nodes)
    (matched : names.map Option.isNone = e.inputs.map Atom.isLiteral)
    (counted : outputs.length = e.outputs.length) (arrays : Dict Descriptor) :
    Within (nodes arrays names outputs e) := by
  have inputs : names.length = e.inputs.length := by simpa using congrArg List.length matched
  unfold nodesOf? at known
  split at known
  next gather =>
    cases known
    refine Gather.within_nodes arrays matched fun two free => ?_
    obtain ⟨v, head⟩ := indexed.gathered gather two free
    obtain ⟨output, first⟩ := exists_outputOf head counted
    exact ⟨output, v, first⟩
  split at known
  next concatenate =>
    cases known
    simp only [Movement.concatenateNodes, within_ite, within_refuse, within_bind,
      Params.within_size, implies_true, true_and]
    intro free dim sized
    have arrays (atom : Atom) (member : atom ∈ e.inputs) : atom.isLiteral = false := by
      have listed : atom.isLiteral ∈ names.map Option.isNone :=
        matched ▸ List.mem_map_of_mem member
      obtain ⟨name?, there, same⟩ := List.mem_map.mp listed
      rw [← same, ← Bool.not_eq_true]
      exact fun none => free (List.any_eq_true.mpr ⟨name?, there, none⟩)
    obtain ⟨v, head, there⟩ := indexed.joined concatenate arrays dim sized
    obtain ⟨output, first⟩ := exists_outputOf head counted
    refine ⟨by simp [first], fun pair first' small => ?_⟩
    cases first.symm.trans first'
    refine Movement.within_partNodes (fun part listed => ?_) 0
    exact there (Nat.lt_of_not_le small) part.2 (List.of_mem_zip listed).2
  split at known
  next slice =>
    cases known
    unfold Movement.dynamicSliceNodes
    split
    next source starts operand atoms listed =>
      simp only [within_ite, within_refuse, implies_true, true_and]
      intro matching
      rw [listed] at inputs
      have free : operand.isLiteral = false := by
        rw [listed] at matched
        exact (List.cons.inj matched).1.symm
      obtain ⟨v, head, ranked⟩ := indexed.moved slice operand (by rw [listed]; rfl) free
        (by rw [listed]; simp_all)
      obtain ⟨output, first⟩ := exists_outputOf head counted
      have axes : max v.shape.length 1 = (Elementwise.axes v.shape).length := by
        unfold Elementwise.axes
        cases v.shape <;> simp
      simp only [first, ok_bind]
      refine within_bind.mpr ⟨Movement.within_windowIndex _ _ 0 _ ?_, fun _ _ => within_ok _⟩
      rw [← axes, List.length_zip]
      omega
    · exact within_refuse _
  split at known
  next reshape =>
    cases known
    unfold Movement.reshapeNodes
    split
    · simp
    next plain =>
      split
      next source rest =>
        rcases listed : e.inputs with _ | ⟨operand, others⟩
        · rw [listed] at matched
          cases matched
        rw [listed] at matched
        obtain ⟨v, head⟩ := indexed.reshaped reshape (by simpa using plain) operand
          (by rw [listed]; rfl) (List.cons.inj matched).1.symm
        obtain ⟨output, first⟩ := exists_outputOf head counted
        simp [first]
      · simp
  obtain ⟨op, found, rfl⟩ := Option.map_eq_some_iff.mp known
  have within := within_operations op (List.mem_of_find?_eq_some found)
  unfold Elementwise.nodes
  split <;> simp [within.node inputs]

end Nodes

namespace Tensor

theorem Sound.within_values {t : Tensor} (sound : t.Sound) : Within t.values := by
  rcases counted : t.count with failure | count
  · have within : Within t.count := within_sizeProduct _
    rw [counted] at within
    simpa [Tensor.values, Tensor.offsets, counted] using within
  by_cases room : count * 8 < indexBound
  · rw [sound.values counted room]
    exact within_ok _
  · rw [Tensor.values, Tensor.offsets, counted, ok_bind, checkCapacity, if_neg room]
    simp

theorem within_ofValues (elem : ElemType) (shape : List Nat) {values : List Datum}
    (listed : values.length * 8 < indexBound) : Within (ofValues elem shape values) := by
  have zeros : Within (Tensor.zeros elem shape) := by
    simp [Tensor.zeros, Shape.denseStrides, blank, checkCapacity]
  simp only [ofValues, within_bind, within_sizeProduct, within_ite, within_refuse, refuse_ne_ok,
    zeros, true_and, false_implies, implies_true, not_not]
  -- Zeros that can be made have a place for every value.
  rintro _ counted rfl blank made
  obtain ⟨_, -, strides, -⟩ := zeros_eq_ok.mp made
  obtain ⟨t, whole, -⟩ : ∃ t, ofValues elem shape values = .ok t ∧ _ :=
    exists_ofValues counted strides listed
  obtain ⟨-, blank', made', stored⟩ := ofValues_eq_ok.mp whole
  cases made.symm.trans made'
  rw [stored]
  exact within_ok _

theorem Sound.within_reshape {t : Tensor} (sound : t.Sound) (shape : List Nat) :
    Within (t.reshape shape) := by
  have stored : ∀ values, t.values = .ok values → Within (ofValues t.elem shape values) :=
    fun values known => within_ofValues _ _ (count_of_values known).2
  simp +contextual [Tensor.reshape, Tensor.count, sound.within_values, stored]

end Tensor

theorem Graph.within_bindConstant (g : Graph) (name : String) {t : Tensor} (sound : t.Sound) :
    Within (g.bindConstant name t) := by
  unfold Graph.bindConstant
  split <;> simp [sound.within_reshape, Graph.fits, Descriptor.count, Tensor.count]

@[simp] theorem Graph.within_addArray (g : Graph) (name : String) (d : Descriptor) :
    Within (g.addArray name d) := by
  simp [Graph.addArray]

namespace Builder

variable {step : LowerM α} {b : Builder} {state : Nat}

-- A step that does not end in an index out of range.
def WithinAt (step : LowerM α) (b : Builder) : Prop :=
  Within (step b).1

@[simp] theorem withinAt_pure (a : α) : WithinAt (pure a) b :=
  within_ok a

@[simp] theorem withinAt_refuse (cause : Error) : WithinAt (refuse cause : LowerM α) b :=
  nofun

@[simp] theorem withinAt_throw {failure : Failure} : WithinAt (throw failure : LowerM α) b ↔
    failure ≠ .fault .outOfRange :=
  within_error

@[simp] theorem withinAt_lift {o : Outcome α} : WithinAt (lift o) b ↔ Within o :=
  .rfl

@[simp] theorem withinAt_get : WithinAt get b :=
  within_ok b

@[simp] theorem withinAt_set (b' : Builder) : WithinAt (set b' : LowerM PUnit) b :=
  within_ok _

@[simp] theorem withinAt_modify (change : Builder → Builder) : WithinAt (modify change) b :=
  within_ok _

@[simp] theorem withinAt_attempt : WithinAt (attempt step) b :=
  within_ok _

@[simp] theorem withinAt_bind {next : α → LowerM β} :
    WithinAt (step >>= next) b ↔ WithinAt step b ∧ ∀ a b', Gives step b a b' → WithinAt
      (next a) b' := by
  rw [WithinAt, WithinAt, bind_run]
  rcases ran : step b with ⟨failure | a, b'⟩
  · simp only [Within, ne_eq, Except.error.injEq, iff_self_and]
    intro _ a b' given
    cases ran.symm.trans given
  · refine ⟨fun within => ⟨within_ok a, fun a' b'' given => ?_⟩, fun within => within.2 a b' ran⟩
    cases ran.symm.trans given
    exact within

@[simp] theorem withinAt_map {f : α → β} : WithinAt (f <$> step) b ↔ WithinAt step b := by
  simp [← bind_pure_comp]

@[simp] theorem withinAt_ite {c : Prop} [Decidable c] {other : LowerM α} :
    WithinAt (if c then step else other) b ↔ (c → WithinAt step b) ∧ (¬ c → WithinAt other b) := by
  split <;> simp_all

@[simp] theorem withinAt_forM {items : List α} {step : α → LowerM PUnit}
    (each : ∀ a b, WithinAt (step a) b) (b : Builder) : WithinAt (forM items step) b := by
  induction items generalizing b with
  | nil => exact within_ok _
  | cons item rest ih => simp [each, ih]

@[simp] theorem not_gives_refuse {cause : Error} {a : α} {b' : Builder} :
    Gives (refuse cause : LowerM α) b a b' ↔ False :=
  iff_of_false gives_refuse id

variable (b)

@[simp] theorem withinAt_draft : WithinAt draft b := by
  simp only [draft, withinAt_bind, withinAt_get, true_and]
  intro b' _ _
  split <;> simp

@[simp] theorem withinAt_graph : WithinAt graph b := by
  simp [graph]

@[simp] theorem withinAt_changeGraph {change : Graph → Outcome Graph}
    (within : ∀ g, Within (change g)) : WithinAt (changeGraph change) b := by
  simp [changeGraph, setDraft, within]

@[simp] theorem withinAt_array (name : String) : WithinAt (array name) b := by
  simp only [array, withinAt_bind, withinAt_graph, true_and]
  intro g _ _
  split <;> simp

@[simp] theorem withinAt_append (label? : Option String) (guard? : Option Guard)
    (assignments : Dict Binding) (after? : Option Nat) :
    WithinAt (append label? guard? assignments after?) b := by
  cases label? <;> simp [append, setDraft]

@[simp] theorem withinAt_mapVariable (v : Var) (name : String) :
    WithinAt (mapVariable v name) b := by
  simp only [mapVariable, withinAt_bind, withinAt_draft, true_and]
  intro d _ _
  split <;> simp

@[simp] theorem withinAt_addArray (v : Var) (before : String) (record : Bool) :
    WithinAt (addArray v before record) b := by
  have proposal (b : Builder) : WithinAt (proposal v before) b := by
    simp only [Builder.proposal, withinAt_bind, withinAt_draft, true_and]
    intro d _ _
    split <;> simp
  have checked (name : String) (b : Builder) : WithinAt (checkProposal v name) b := by
    simp [checkProposal]
  -- What went wrong while mapping is thrown again.
  have mapped (name : String) (b b' : Builder) (outcome : Outcome Unit)
    (given : Gives (attempt (mapVariable v name)) b outcome b') : Within outcome := by
    have within := withinAt_mapVariable b v name
    rwa [WithinAt, gives_attempt.mp given] at within
  cases record with
  | false => simp [addArray, proposal, checked]
  | true =>
    simp only [addArray, if_true, withinAt_bind, withinAt_ite, withinAt_refuse, proposal, checked,
      withinAt_lift, within_dense, withinAt_attempt,
      Graph.within_addArray, implies_true, withinAt_changeGraph, not_gives_refuse, false_implies,
      and_self, true_and]
    intro _ name _ _ _ _ _ d _ _ _ b _ outcome b' given
    have within := mapped _ _ _ _ given
    cases outcome <;> simp_all

@[simp] theorem withinAt_lookup? (v : Var) : WithinAt (lookup? v) b := by
  simp only [lookup?, withinAt_bind, withinAt_draft, true_and]
  intro d _ _
  split <;> simp

@[simp] theorem withinAt_resolve (options : ResolveOptions) (atoms : List Atom) :
    WithinAt (resolve options atoms) b := by
  have name (v : Var) (b : Builder) : WithinAt (resolveVar options v) b := by
    simp only [resolveVar, withinAt_bind, withinAt_lookup?, true_and]
    intro found? _ _
    cases found? <;> simp
  have all (b : Builder) : WithinAt (resolveAll options atoms) b := by
    induction atoms generalizing b with
    | nil => simp [resolveAll]
    | cons atom rest ih => cases atom <;> simp [resolveAll, resolveAtom, name, ih]
  simp [resolve, all]

@[simp] theorem withinAt_createVars (vs : List Var) (before : String) :
    WithinAt (createVars vs before) b := by
  simp [createVars]

@[simp] theorem withinAt_unmapVariable (v : Var) : WithinAt (unmapVariable v) b := by
  simp [unmapVariable]

theorem withinAt_push (name? : Option String) : WithinAt (push name?) b := by
  cases name? <;> simp [push, nextUnnamed]

theorem withinAt_pop : WithinAt pop b := by
  simp only [pop, withinAt_bind, withinAt_get, true_and]
  intro b' _ _
  split <;> simp

-- The innermost draft has the state.
def Has (b : Builder) (state : Nat) : Prop :=
  ∃ d rest, b.drafts = d :: rest ∧ state < d.graph.states.length

variable {b}

theorem has_append {label : String} {guard? : Option Guard} {assignments : Dict Binding}
    {after? : Option Nat} {b' : Builder}
    (given : Gives (append (some label) guard? assignments after?) b state b') : b'.Has state := by
  obtain ⟨_ | ⟨d, rest⟩, mapped, unnamed⟩ := b
  · obtain ⟨failure, ran⟩ := stuck_append (some label) guard? assignments after? mapped unnamed
    cases ran.symm.trans given
  · obtain ⟨-, -, rfl, rfl⟩ := gives_append.mp given
    refine ⟨_, _, rfl, ?_⟩
    simp [Draft.appended, Graph.addState, Graph.addEdge]

theorem within_emit (has : b.Has state) (node : Node) : WithinAt (emit state node) b := by
  obtain ⟨drafts, mapped, unnamed⟩ := b
  obtain ⟨d, rest, rfl, there⟩ := has
  have given : Gives (emit state node) ⟨d :: rest, mapped, unnamed⟩ () _ :=
    gives_emit.mpr ⟨_, addNode_eq_ok.mpr ⟨there, rfl⟩, rfl⟩
  rw [WithinAt, given]
  exact within_ok ()

end Builder

theorem Emits.within {state : Nat} {step : LowerM (Option Nat)}
    {nodes : Dict Descriptor → Outcome (List Node)} (emits : Emits state step nodes) {d : Draft}
    {rest : List Draft} {mapped unnamed : Nat} (there : state < d.graph.states.length)
    (within : Within (nodes d.graph.arrays)) : WithinAt step ⟨d :: rest, mapped, unnamed⟩ := by
  induction emits generalizing d with
  | refuse => simp
  | nothing => simp
  | @lift _ o next nodes _ ih =>
    simp only [within_bind] at within
    refine withinAt_bind.mpr ⟨within.1, fun a b' given => ?_⟩
    obtain ⟨made, rfl⟩ := gives_lift.mp given
    exact ih a there (within.2 a made)
  | @array name next nodes _ ih =>
    simp only [within_bind] at within
    refine withinAt_bind.mpr ⟨withinAt_array _ _, fun found b' given => ?_⟩
    obtain ⟨known, rfl⟩ := gives_array.mp given
    exact ih found there (within.2 found (arrayOf_eq_ok.mpr known))
  | @emit node step nodes _ ih =>
    refine withinAt_bind.mpr ⟨within_emit ⟨_, _, rfl, there⟩ node, fun _ b' given => ?_⟩
    obtain ⟨g, added, rfl⟩ := gives_emit.mp given
    obtain ⟨-, rfl⟩ := addNode_eq_ok.mp added
    exact ih (by simpa using there) (by simpa using within)
  | @guarded c _ cause cause' next nodes _ ih =>
    simp only [within_ite] at within
    refine withinAt_ite.mpr ⟨by simp, fun holds => ih there (within.2 holds)⟩

section Nested

open Builder

variable {b : Builder} {state fuel : Nat} {e : Equation}

theorem Nested.within_embed (has : b.Has state) (child : Draft) (inputs outputs : List String) :
    WithinAt (embed state child inputs outputs) b := by
  simp [embed, gives_lift, within_emit has]

-- Whatever a nested function does, the states around the equation are still there.
theorem Builder.Has.lower (has : b.Has state) {f : Lambda} {name? : Option String} {d : Draft}
    {b' : Builder}
    (given : Gives ((toolkit .builtin fuel).lower f name?) b d b') : b'.Has state := by
  obtain ⟨outer, rest, stack, there⟩ := has
  have same := toolkit_lower_stack fuel f name? b
  rw [given] at same
  exact ⟨outer, rest, same.trans stack, there⟩

variable (callees : ∀ f ∈ e.nested, ∀ name? b, WithinAt ((toolkit .builtin fuel).lower f name?) b)
  (names : List (Option String)) (outputs : List String)

include callees

theorem Nested.within_call (has : b.Has state) :
    WithinAt (call (toolkit .builtin fuel) names outputs e state) b := by
  have called {f : Lambda} (known : Params.lambda e.params "jaxpr" = .ok f) (name : String)
    (inputs : List String) :
      WithinAt ((toolkit .builtin fuel).lower f (some name) >>= fun child => embed state child
        inputs outputs) b :=
    withinAt_bind.mpr ⟨callees f (Equation.mem_nested_of_lambda known) _ b,
      fun child _ given => within_embed (has.lower given) child inputs outputs⟩
  simp only [withinAt_bind] at called
  refine withinAt_bind.mpr ⟨by simp, fun _ b' checked => ?_⟩
  obtain rfl := gives_checks checked
  split
  · simp
  next inputs _ =>
  simp only [withinAt_bind, withinAt_lift, Params.within_lambda, gives_lift, true_and]
  rintro f _ ⟨known, rfl⟩
  split
  · simpa [gives_lift] using fun name _ => called known _ inputs
  · simpa using called known _ inputs

theorem Nested.within_branchStates (pattern : String) (operand : Operand) (source : Nat)
    (inputs : List String) (i : Nat) {branches : List Lambda}
    (among : ∀ f ∈ branches, f ∈ e.nested) (b : Builder) :
    WithinAt (branchStates (toolkit .builtin fuel) pattern operand source inputs outputs i branches)
      b := by
  induction branches generalizing i b with
  | nil => simp [branchStates]
  | cons branch rest ih =>
    obtain ⟨here, among⟩ := List.forall_mem_cons.mp among
    simp only [branchStates, withinAt_bind, callees branch here, withinAt_append, ih _ among,
      withinAt_pure, implies_true, and_true, true_and]
    exact fun child _ _ state _ given => within_embed (has_append given) child inputs outputs

theorem Nested.within_cond (has : b.Has state) :
    WithinAt (cond (toolkit .builtin fuel) names outputs e state) b := by
  have promoted (pattern : String) (i : Nat) (pairs : List (Option String × Atom)) (b : Builder) :
    WithinAt (promoteFrom pattern i pairs) b := by
    induction pairs generalizing i b with
    | nil => simp [promoteFrom]
    | cons pair rest ih =>
      rcases pair with ⟨_ | name, v | s⟩
      · simp [promoteFrom]
      · obtain ⟨t, made, -⟩ := Tensor.exists_ofScalar s
        simp [promoteFrom, made, Graph.addConstant, ih]
      · simp [promoteFrom, ih]
      · simp [promoteFrom, ih]
  have chosen (pattern : String) (name? : Option String) (selector : Atom) (b : Builder) :
    WithinAt (selection pattern name? selector state) b := by
    unfold selection
    split <;> simp
  unfold cond
  split
  · simp only [withinAt_bind, withinAt_ite, withinAt_refuse, withinAt_lift, Params.within_lambdas,
      gives_lift, not_gives_refuse, withinAt_graph, true_and,
      implies_true, false_implies, promote, promoted, chosen]
    rintro - branches ⟨drafts, mapped, unnamed⟩ ⟨known, rfl⟩ g b' given
    constructor
    · obtain ⟨d, rest, rfl, there⟩ := has
      obtain ⟨rfl, -⟩ := gives_graph.mp given
      rw [Graph.state, List.getElem?_eq_getElem there]
      exact within_ok _
    · rintro s _ - inputs _ - ⟨operand, source⟩ b -
      refine ⟨within_branchStates callees outputs _ operand source inputs 0
        (fun f => Equation.mem_nested_of_lambdas known) b, fun ids b _ => ?_⟩
      cases ids <;> simp
  · simp

end Nested

namespace Lowering

open Builder

variable {b : Builder} {fuel : Nat} {e : Equation} {f : Lambda}

theorem within_createConstants (sound : ∀ t ∈ f.consts, t.Built) (b : Builder) :
    WithinAt (createConstants f) b := by
  have bound (pairs : List (String × Tensor)) (among : ∀ pair ∈ pairs, pair.2.Sound) (b : Builder) :
    WithinAt (bindConstants pairs) b := by
    induction pairs generalizing b with
    | nil => simp [bindConstants]
    | cons pair rest ih =>
      obtain ⟨here, among⟩ := List.forall_mem_cons.mp among
      simp [bindConstants, Graph.within_bindConstant _ _ here, ih among]
  unfold createConstants
  split
  · refine withinAt_bind.mpr ⟨by simp, fun names b _ => bound _ (fun pair member => ?_) b⟩
    exact (sound pair.2 (List.of_mem_zip member).2).sound
  · simp

@[simp] theorem within_settle (primitive : String) (state : Nat) (reported? : Option Nat)
    (b : Builder) : WithinAt (settle primitive state reported?) b := by
  cases reported? <;> simp [settle, setDraft]

@[simp] theorem within_inEquation {step : LowerM α} : WithinAt (inEquation e step) b ↔
    WithinAt step b := by
  rw [WithinAt, WithinAt, inEquation]
  rcases step b with ⟨(cause | cause) | a, b'⟩ <;> simp [Failure.inEquation]

theorem isNone_of_resolved {d : Draft} {allowLiterals : Bool} {atoms : List Atom}
    {names : List (Option String)}
    (resolved : List.Forall₂ (Resolved d allowLiterals) atoms names) :
    names.map Option.isNone = atoms.map Atom.isLiteral := by
  induction resolved with
  | nil => rfl
  | @cons atom name? _ _ here _ ih =>
    rw [List.map_cons, List.map_cons, ih]
    cases atom <;> cases name? <;> first | rfl | cases here

section Equations

variable (callees : ∀ f ∈ e.nested, ∀ name? b, WithinAt (inner fuel f name?) b)

include callees

theorem within_rule {apply : Apply}
    (listed : (toolkit .builtin fuel).rule? e.primitive = some apply) (indexed : e.Indexed)
    {names : List (Option String)} {outputs : List String}
    (matched : names.map Option.isNone = e.inputs.map Atom.isLiteral)
    (counted : outputs.length = e.outputs.length)
    {state : Nat} (has : b.Has state) : WithinAt (apply names outputs e state) b := by
  obtain _ | fuel := fuel
  · cases listed
  obtain ⟨rule, known, rfl⟩ := Option.map_eq_some_iff.mp listed
  rcases builtin_cases known with ⟨-, cond⟩ | ⟨-, call⟩ | ⟨nodes, made, flat⟩
  · rw [cond]
    exact Nested.within_cond callees names outputs has
  · rw [call]
    exact Nested.within_call callees names outputs has
  · obtain ⟨drafts, mapped, unnamed⟩ := b
    obtain ⟨d, rest, rfl, there⟩ := has
    exact (flat _ names outputs e state).within there (indexed.nodes made matched counted _)

theorem within_lowerEquation (indexed : e.Indexed) (d : Draft) (rest : List Draft)
    (mapped unnamed : Nat) :
    WithinAt (lowerEquation (toolkit .builtin fuel) e) ⟨d :: rest, mapped, unnamed⟩ := by
  simp only [lowerEquation, withinAt_bind, withinAt_ite, withinAt_refuse, not_gives_refuse,
    withinAt_resolve, withinAt_createVars, true_and, implies_true,
    false_implies]
  intro _ names b found outputs b' created
  obtain ⟨resolved, rfl⟩ := gives_resolve_known.mp found
  obtain ⟨opened, creates, rfl⟩ := gives_createVars.mp created
  split
  · simp
  next apply known =>
    simp only [withinAt_bind, withinAt_append, within_settle, true_and, implies_true, and_true]
    exact fun state _ appended => within_rule callees known indexed (isNone_of_resolved resolved)
      creates.length_eq (has_append appended)

end Equations

theorem within_lowerEquations {equations : List Equation} (done : Nat)
    (each : ∀ e ∈ equations, ∀ d rest mapped unnamed,
      WithinAt (lowerEquation (toolkit .builtin fuel) e) ⟨d :: rest, mapped, unnamed⟩) (d :
      Draft) (rest : List Draft) (mapped unnamed : Nat) :
    WithinAt (lowerEquations (toolkit .builtin fuel) done equations)
      ⟨d :: rest, mapped, unnamed⟩ := by
  induction equations generalizing done d mapped unnamed with
  | nil => simp [lowerEquations]
  | cons e others ih =>
    obtain ⟨here, each⟩ := List.forall_mem_cons.mp each
    unfold lowerEquations
    split
    · simp [gives_inEquation, ih done each]
    · refine withinAt_bind.mpr ⟨within_inEquation.mpr (here d rest mapped unnamed),
        fun _ b' given => ?_⟩
      obtain ⟨outcome, d', mapped', ran⟩ := confined_lowerEquation (confined_toolkit fuel) e d rest
        mapped
      cases (gives_inEquation.mp given).symm.trans (ran unnamed)
      exact ih (done + 1) each d' mapped' unnamed

section Aliases

variable {d : Draft} {rest : List Draft} {mapped unnamed state : Nat}
  (there : state < d.graph.states.length)

include there

-- What comes after the copy finds the state as well.
theorem within_addAlias (v : Var) {next : String → LowerM α}
    (later : ∀ copy (d' : Draft), state < d'.graph.states.length →
      WithinAt (next copy) ⟨d' :: rest, mapped, unnamed⟩) :
    WithinAt (addAlias state v >>= next) ⟨d :: rest, mapped, unnamed⟩ := by
  simp only [addAlias, lookup, bind_assoc, pure_bind]
  refine withinAt_bind.mpr ⟨by simp, fun found? b' given => ?_⟩
  obtain ⟨-, -, rfl⟩ := gives_lookup?.mp given
  cases found? with
  | none => simp
  | some name =>
    simp only [pure_bind, withinAt_bind, withinAt_addArray, withinAt_array, true_and]
    intro copy b' added found b'' known
    obtain ⟨array, -, rfl⟩ := (gives_addArray (by simp)).mp added
    obtain ⟨-, rfl⟩ := gives_array.mp known
    refine ⟨within_emit ⟨d.withArray copy array, rest, rfl, there⟩ _, fun _ b' given => ?_⟩
    obtain ⟨g, added, rfl⟩ := gives_emit.mp given
    obtain ⟨there, rfl⟩ := addNode_eq_ok.mp added
    exact later copy _ (by simpa using there)

theorem within_addAliases (known : List (Var × String)) (atoms : List Atom) :
    WithinAt (addAliases state known atoms) ⟨d :: rest, mapped, unnamed⟩ := by
  induction atoms generalizing d known with
  | nil => simp [addAliases]
  | cons atom others ih =>
    cases atom with
    | literal s => simp [addAliases]
    | var v =>
      unfold addAliases
      split
      · simp [ih there]
      · exact within_addAlias there v fun copy d' there' => by simp [ih there']

end Aliases

theorem within_lowerBody (sound : ∀ t ∈ f.consts, t.Built)
    (each : ∀ e ∈ f.equations, ∀ d rest mapped unnamed,
      WithinAt (lowerEquation (toolkit .builtin fuel) e) ⟨d :: rest, mapped, unnamed⟩)
    (title : String) (rest : List Draft) (mapped unnamed : Nat) :
    WithinAt (lowerBody (toolkit .builtin fuel) f) ⟨Draft.new title :: rest, mapped, unnamed⟩ := by
  rw [lowerBody]
  refine withinAt_bind.mpr
    ⟨by simp [enter, setDraft, within_createConstants sound], fun _ b given => ?_⟩
  obtain ⟨d₁, d₂, mapped₁, inputs, constants, creates, rfl⟩ := gives_enter.mp given
  refine withinAt_bind.mpr ⟨within_lowerEquations 0 each _ rest _ _, fun count b given => ?_⟩
  obtain ⟨count, d, mapped', unnamed', all, -, rfl⟩ :=
    gives_lowerEquations (steady_toolkit (fuel - 1)) given
  -- The state that the copies go to is there from the beginning.
  have formed : d.Formed :=
    all.preserves (fun _ => id) Draft.Formed.step
      ((Draft.Formed.new title).congr (creates.machine_eq.trans constants.machine_eq))
  have there : d.start < d.graph.states.length := by
    rw [formed.start]
    exact Nat.zero_lt_of_lt formed.inside
  split
  · simp [aliasOutputs, gives_draft, within_addAliases there]
  · simp

theorem within_lowerWith (body : ∀ title rest mapped unnamed,
    WithinAt (lowerBody (toolkit .builtin fuel) f) ⟨Draft.new title :: rest, mapped, unnamed⟩)
    (name? : Option String) (b : Builder) :
    WithinAt (lowerWith (toolkit .builtin fuel) f name?) b := by
  rw [lowerWith_eq]
  simp only [inside, withinAt_ite, withinAt_refuse, withinAt_bind, withinAt_push, withinAt_pop,
    withinAt_attempt, true_and, implies_true]
  intro _ _ b' given outcome b'' attempted d? _ _
  obtain ⟨stack, mapped, unnamed⟩ := b
  obtain ⟨title, unnamed', -, rfl⟩ := gives_push.mp given
  have within := body title stack mapped unnamed'
  rw [WithinAt, gives_attempt.mp attempted] at within
  cases d? <;> simp [within]

theorem within_toolkit (fuel : Nat) (indexed : f.Throughout Equation.Indexed)
    (sound : ∀ t ∈ f.consts, t.Built) (name? : Option String)
    (b : Builder) : WithinAt ((toolkit .builtin fuel).lower f name?) b := by
  -- The rules of one level call the toolkit two levels below.
  induction fuel using Nat.strong_induction_on generalizing f name? b with
  | _ fuel ih =>
    obtain _ | fuel := fuel
    · exact withinAt_refuse _
    refine within_lowerWith (within_lowerBody sound fun e member => within_lowerEquation
      (fun callee inside name? b => ?_) (indexed.here member)) name? b
    exact ih (fuel - 1) (by omega) (indexed.nested member inside)
      ((indexed.here member).constants callee inside) name? b

end Lowering

-- Joins two vectors and reads a window that starts where the third input says.
def windowed : Lambda :=
  let var (id : Nat) (shape : List Nat) : Var := ⟨id, .traced, shape, .int64⟩
  let joined : Equation := ⟨"concatenate", [.var (var 0 [2]), .var (var 1 [3])], [var 3 [5]],
    Dict.ofList [("dimension", .int 0)], false⟩
  let window : Equation := ⟨"dynamic_slice", [.var (var 3 [5]), .var (var 2 [])], [var 4 [2]], {},
    false⟩
  ⟨[var 0 [2], var 1 [3], var 2 []], [], [], [], [joined, window], [.var (var 4 [2])]⟩

end TraceFlow
