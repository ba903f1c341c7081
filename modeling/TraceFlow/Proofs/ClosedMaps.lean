import TraceFlow.Proofs.HygienicKernels
import TraceFlow.Proofs.Places
import TraceFlow.Proofs.SafeRuns

set_option autoImplicit false

namespace TraceFlow

open Kernel Program List

variable {names : List (Option String)} {op : Elementwise} {v : Var} {e : Equation}
  {loose : String → Prop}

-- A map that binds all it uses, its kernel too if its accesses have a subscript each. An array of
-- an accepted graph has at least one dimension.
def MapNode.Closed (loose : String → Prop) (m : MapNode) : Prop :=
  m.outerSymbols = [] ∧ ∀ body, prepare m = .ok body → (∀ access ∈ m.accesses, access.subset ≠ []) →
    body.Closed loose

theorem Access.Element.window?_eq_none {names : List String} {access : Access}
    (element : access.Element names) : Effect.window? access = none := by
  unfold Effect.window?
  cases parts : access.subset with
  | nil => rfl
  | cons part rest =>
    obtain ⟨index, rfl, -⟩ := element part (by simp [parts])
    rfl

theorem Access.element_over {names : List String} (array : String) {indices : List Index}
    (within : ∀ i ∈ indices, i.Over (· ∈ names)) : Element names (.element array indices) :=
  element_element array fun i member s used => within i member s used

theorem mem_params {axes : List Axis} : ∀ axis ∈ axes, axis.param ∈ axes.map Axis.param :=
  fun _ member => mem_map_of_mem member

theorem Access.Element.symbols_subset {names : List String} {access : Access}
    (element : access.Element names) : access.symbols ⊆ names := by
  intro symbol used
  obtain ⟨part, member, used⟩ := mem_flatMap.mp used
  obtain ⟨index, rfl, bound⟩ := element part member
  exact bound used

namespace MapNode

variable {m : MapNode}

theorem outerSymbols_eq_nil (inputs : ∀ entry ∈ m.inputs.entries, entry.2.symbols ⊆ m.locals)
    (outputs : ∀ entry ∈ m.outputs.entries, entry.2.Element m.locals) : m.outerSymbols = [] := by
  refine filter_eq_nil_iff.mpr fun symbol used => ?_
  obtain ⟨access, member, used⟩ := mem_flatMap.mp used
  obtain ⟨entry, listed, rfl⟩ := mem_map.mp member
  have bound : symbol ∈ m.locals := by
    rcases mem_append.mp listed with input | output
    · exact inputs entry input used
    · exact (outputs entry output).symbols_subset used
  simpa using bound

theorem closed_of_reading (inputs : ∀ entry ∈ m.inputs.entries, entry.2.Element m.locals)
    (dynamic : ∀ entry ∈ m.dynamic.entries, entry.2.Element [])
    (outputs : ∀ entry ∈ m.outputs.entries, entry.2.Element m.locals)
    (reading : Reading (fun n => loose n ∨ n ∈ m.inputs.keys ∨ n ∈ m.locals) m.code) :
    m.Closed loose := by
  refine ⟨outerSymbols_eq_nil (fun entry member => (inputs entry member).symbols_subset) outputs,
    fun body made _ => ?_⟩
  obtain ⟨rfl, parsed, target, only⟩ := prepare_eq_ok made
  have elements : body.elements = body.node.inputs.entries := by
    refine filter_eq_self.mpr fun entry member => ?_
    simp [(inputs entry member).window?_eq_none]
  obtain ⟨names, arrays⟩ := reading _ parsed
  refine ⟨by rwa [elements], dynamic, outputs (target, body.output) (by simp [only]), ?_, ?_⟩
  · rw [elements]
    exact names
  · intro array count member
    rw [arrays] at member
    cases member

end MapNode

namespace Elementwise

variable {pairs : List (Option String × Atom)} {connector : Nat → String} {i : Nat}
  {inputs : Dict Access} {total : Prop} {tree : Expr}

-- The inputs that are arrays, under the names of their connectors.
def OperandNames (connector : Nat → String) (i : Nat) (pairs : List (Option String × Atom))
    (n : String) : Prop :=
  ∃ k name atom, pairs[k]? = some (some name, atom) ∧ n = connector (i + k)

theorem defaultReadsFrom_within {axes : List Axis} {target : List Nat}
    (made : defaultReadsFrom axes target connector i pairs = .ok inputs) :
    (∀ entry ∈ inputs.entries, entry.2.Element (axes.map Axis.param)) ∧ ∀ n,
    OperandNames connector i pairs n → n ∈ inputs.keys := by
  induction pairs generalizing i inputs with
  | nil =>
    cases made
    refine ⟨fun entry member => absurd member not_mem_nil, ?_⟩
    rintro n ⟨k, name, atom, found, -⟩
    cases found
  | cons pair rest ih =>
    obtain ⟨name?, atom⟩ := pair
    cases name? with
    | none =>
      obtain ⟨elements, named⟩ := ih made
      refine ⟨elements, ?_⟩
      rintro n ⟨k, name, atom, found, rfl⟩
      cases k with
      | zero => cases found
      | succ k => exact named _ ⟨k, name, atom, found, by rw [Nat.add_assoc, Nat.add_comm 1 k]⟩
    | some name =>
      obtain ⟨index, first, made⟩ := bind_eq_ok.mp made
      obtain ⟨others, later, made⟩ := bind_eq_ok.mp made
      cases made
      obtain ⟨elements, named⟩ := ih later
      constructor
      · rintro ⟨key, access⟩ member
        rcases Dict.mem_insertEntry member with same | known
        · cases same
          exact Access.element_over name (defaultIndex_over mem_params first)
        · exact elements _ known
      · rintro n ⟨k, name, atom, found, rfl⟩
        rw [Dict.mem_keys_insert]
        cases k with
        | zero => exact .inl rfl
        | succ k =>
          exact .inr (named _ ⟨k, name, atom, found, by rw [Nat.add_assoc, Nat.add_comm 1 k]⟩)

def operandValue (connector : Nat → String) (i : Nat) : Option String → Atom → Outcome String
  | some _, _ => .ok (connector i)
  | none, .literal s => .ok s.code
  | none, .var _ => refuse (.invariant s!"input {i} has no array but is not a literal")

theorem bindInputs_cons (connector : Nat → String) (i : Nat) (name? : Option String) (atom : Atom)
    (rest : List (Option String × Atom)) (t : Template) :
    bindInputs connector i ((name?, atom) :: rest) t =
      operandValue connector i name? atom >>= fun value => bindInputs connector (i + 1) rest
        (t.bind ("in" ++ i.repr) value) := by
  cases name? <;> cases atom <;> rfl

theorem bindInputs_bound {t t' : Template} (bound : bindInputs connector i pairs t = .ok t') :
    t'.text = t.text ∧ ∀ slot value, t'.bindings.get? slot = some value →
      t.bindings.get? slot = some value ∨ ∃ k name? atom, pairs[k]? = some (name?, atom) ∧
      slot = "in" ++ (i + k).repr ∧ ((name?.isSome = true ∧ value = connector (i + k)) ∨
          (name? = none ∧ ∃ s : Scalar, value = s.code)) := by
  induction pairs generalizing i t with
  | nil =>
    cases bound
    exact ⟨rfl, fun slot value known => .inl known⟩
  | cons pair rest ih =>
    obtain ⟨name?, atom⟩ := pair
    rw [bindInputs_cons, bind_eq_ok] at bound
    obtain ⟨value, filled, bound⟩ := bound
    obtain ⟨text, later⟩ := ih bound
    refine ⟨text, fun slot found known => ?_⟩
    rcases later slot found known with earlier | ⟨k, name?, atom, listed, rfl, value⟩
    · rw [Template.bind, Dict.get?_insert] at earlier
      split at earlier
      next same =>
        cases earlier
        refine .inr ⟨0, name?, atom, rfl, same, ?_⟩
        cases name? with
        | some name =>
          cases filled
          exact .inl ⟨rfl, rfl⟩
        | none =>
          cases atom with
          | literal s =>
            cases filled
            exact .inr ⟨rfl, s, rfl⟩
          | var v => cases filled
      · exact .inl earlier
    · have shift : i + 1 + k = i + (k + 1) := by omega
      rw [shift] at value ⊢
      exact .inr ⟨k + 1, name?, atom, listed, rfl, value⟩

theorem get?_bindInputs_other {t t' : Template} (bound : bindInputs connector i pairs t = .ok t')
    {slot : String} (apart : ∀ k : Nat, i ≤ k → slot ≠ "in" ++ k.repr) :
    t'.bindings.get? slot = t.bindings.get? slot := by
  induction pairs generalizing i t with
  | nil =>
    cases bound
    rfl
  | cons pair rest ih =>
    rw [bindInputs_cons, bind_eq_ok] at bound
    obtain ⟨value, -, bound⟩ := bound
    rw [ih bound fun k later => apart k (by omega), Template.bind, Dict.get?_insert,
      if_neg (apart i (Nat.le_refl i))]

section

variable {allowed : String → Prop} {connector : Nat → String} {names : List (Option String)}
  {e : Equation} {t filled : Template}

theorem tells_bindings (words : ∀ k, isWord (connector k) = true)
    (bound : bindInputs connector 0 (names.zip e.inputs) t = .ok filled)
    (operands : ∀ n, OperandNames connector 0 (names.zip e.inputs) n → allowed n)
    {slot value : String} (earlier : t.bindings.get? slot = some value → Tells allowed value.toList)
    (found : filled.bindings.get? slot = some value) : Tells allowed value.toList := by
  rcases (bindInputs_bound bound).2 slot value found with before | ⟨k, name?, atom, listed,
    -, ⟨some, rfl⟩ | ⟨-, s, rfl⟩⟩
  · exact earlier before
  · obtain ⟨name, rfl⟩ := Option.isSome_iff_exists.mp some
    exact tells_word (words _) (operands _ ⟨k, name, atom, listed, rfl⟩)
  · exact tells_code s.value

theorem reading_of_composes {base : Template} {code : String} (composes : base.Composes total tree)
    (text : t.text = base.text)
    (kept : ∀ slot value, base.bindings.get? slot = some value → t.bindings.get? slot = some value ∧
      ∀ k : Nat, slot ≠ "in" ++ k.repr)
    (bound : bindInputs connector 0 pairs t = .ok filled) (rendered : filled.render = .ok code)
    (each : ∀ slot ∈ tree.names, ∀ value, filled.bindings.get? slot = some value →
      Tells allowed value.toList) : Reading allowed ("__out = " ++ code) := by
  obtain ⟨composition, known⟩ := composes.of_render ((bindInputs_bound bound).1.trans text)
    (fun slot value found => by
    obtain ⟨here, apart⟩ := kept slot value found
    rw [get?_bindInputs_other bound fun k _ => apart k, here]) rendered
  refine (composition.tells composes.plain fun holds slot member => ?_).reading
  obtain ⟨value, found⟩ := Option.isSome_iff_exists.mp (known holds slot member)
  rw [Template.texts, found]
  exact each slot member value found

end

-- A kernel of operands, in which what is bound besides has loose names only.
def Bare (loose : String → Prop) (t : Template) : Prop :=
  ∃ total base tree, Template.Composes total base tree ∧ t.text = base.text ∧
    (∀ slot value, base.bindings.get? slot = some value → t.bindings.get? slot = some value ∧
      ∀ k : Nat, slot ≠ "in" ++ k.repr) ∧
    ∀ slot ∈ tree.names, ∀ value, t.bindings.get? slot = some value → ∀ allowed,
    (∀ n, loose n → allowed n) → Tells allowed value.toList

theorem bare_of_composes {t : Template} (composes : t.Composes total tree)
    (apart : ∀ slot value, t.bindings.get? slot = some value → ∀ k : Nat, slot ≠ "in" ++ k.repr) :
    Bare loose t := by
  refine ⟨total, t, tree, composes, rfl, fun slot value found => ⟨found, apart slot value found⟩,
    fun slot member value found => ?_⟩
  rw [composes.free slot member] at found
  cases found

theorem bare_ofText {text : String} (composes : (Template.ofText text).Composes total tree) :
    Bare loose (.ofText text) :=
  bare_of_composes composes fun slot value found => by cases found

theorem isWord_connector (k : Nat) : isWord ("__in" ++ k.repr) = true :=
  isWord_numbered (by decide) k

theorem isWord_axes (shape : List Nat) : ∀ axis ∈ axes shape, isWord axis.param = true := by
  intro axis member
  rw [axes] at member
  split at member
  · rw [mem_singleton.mp member]
    decide
  · obtain ⟨⟨extent, dim⟩, -, rfl⟩ := mem_map.mp member
    exact isWord_numbered (by decide) dim

structure Sealed (loose : String → Prop) (op : Elementwise) (names : List (Option String)) (v : Var)
    (e : Equation) : Prop where
  reads : ∀ {inputs}, op.readsOf (axes v.shape) names e v.shape = .ok inputs →
    ∀ entry ∈ inputs.entries, entry.2.Element ((axes v.shape).map Axis.param)
  kernel : ∀ {inputs t filled code}, op.readsOf (axes v.shape) names e v.shape = .ok inputs →
    op.kernel (axes v.shape) names e = .ok t →
    bindInputs op.connector 0 (names.zip e.inputs) t = .ok filled → filled.render = .ok code →
      Reading (fun n => loose n ∨ n ∈ inputs.keys ∨ n ∈ (axes v.shape).map Axis.param)
        ("__out = " ++ code)

theorem Sealed.closed {output : String} {m : MapNode} (isSealed : op.Sealed loose names v e)
    (made : op.node names output v e = .ok m) : m.Closed loose := by
  obtain ⟨inputs, t, filled, code, read, kernel, bound, rendered, rfl⟩ := node_eq_ok made
  have locals : (axes v.shape).map Axis.param ++ ({} : Dict Access).keys =
    (axes v.shape).map Axis.param := append_nil _
  refine MapNode.closed_of_reading ?_ (fun entry member => absurd member not_mem_nil) ?_ ?_
  · simp only [MapNode.locals, locals]
    exact isSealed.reads read
  · intro entry member
    obtain rfl := mem_singleton.mp (Dict.mem_of_mem_ofList member)
    simp only [MapNode.locals, locals]
    exact Access.element_over output (target_over mem_params)
  · simp only [MapNode.locals, locals]
    exact isSealed.kernel read kernel bound rendered

section

variable {op : Elementwise} {names : List (Option String)} {v : Var} {e : Equation}

theorem defaultReads_within (none : op.reads? = none)
    (read : op.readsOf (axes v.shape) names e v.shape = .ok inputs) :
    (∀ entry ∈ inputs.entries, entry.2.Element ((axes v.shape).map Axis.param)) ∧
      ∀ n, OperandNames op.connector 0 (names.zip e.inputs) n → n ∈ inputs.keys := by
  unfold readsOf at read
  rw [none] at read
  dsimp only at read
  unfold defaultReads at read
  split at read
  · cases read
  · exact defaultReadsFrom_within read

theorem sealed_of_default (none : op.reads? = none) (words : ∀ k, isWord (op.connector k) = true)
    (kernel : ∀ {t}, op.kernel (axes v.shape) names e = .ok t → Bare loose t) :
    op.Sealed loose names v e where
  reads read := (defaultReads_within none read).1
  kernel read made bound rendered := by
    obtain ⟨total, base, tree, composes, text, kept, values⟩ := kernel made
    exact reading_of_composes composes text kept bound rendered fun slot member value =>
      tells_bindings words bound
      (fun n operand => .inr (.inl ((defaultReads_within none read).2 n operand))) fun found =>
      values slot member value found _ fun _ => .inl

end

end Elementwise

-- Exponents are written as whole numbers. A float may be written as a name that no kernel binds.
def Equation.WholeExponent (e : Equation) : Prop :=
  e.primitive = "integer_pow" → ∀ v, e.params.get? "y" ≠ some (.float v)

namespace Arithmetic

open Elementwise

def isInputsOnly (primitive text : String) : Bool :=
  match (Template.ofText text).slots with
  | .ok slots => slots.all fun slot => isInputSlot slot || (primitive = "integer_pow" && slot = "y")
  | .error _ => true

theorem inputsOnly : ∀ kernel ∈ kernels, isInputsOnly kernel.1 kernel.2 = true := by
  decide +kernel

theorem tells_paramText {params : Params} {name text : String}
    (either : loose "NaN" ∨ ∀ v, params.get? name ≠ some (.float v))
    (read : paramText params name = .ok text) {allowed : String → Prop}
    (each : ∀ n, loose n → allowed n) : Tells allowed text.toList := by
  unfold paramText at read
  split at read
  next v found =>
    rcases either with free | whole
    · cases read
      exact (legible_decimal v).tells (forall_mem_singleton.mpr (each _ free))
    · exact absurd found (whole v)
  · obtain ⟨i, -, read⟩ := bind_eq_ok.mp read
    cases read
    exact (legible_integer i).tells_nameless

theorem sealed_operation {primitive text : String} (listed : (primitive, text) ∈ kernels)
    (same : e.primitive = primitive) (exponent : loose "NaN" ∨ e.WholeExponent) :
    (operation primitive text).Sealed loose names v e := by
  refine sealed_of_default rfl isWord_connector fun made => ?_
  obtain ⟨slots, cut, made⟩ := bind_eq_ok.mp made
  obtain ⟨unchanged, bound⟩ := bindParams_bound made
  obtain ⟨tree, composes⟩ :=
    Template.exists_composes (isSome_of_isClassified (tables_classified.1 _ listed))
  refine ⟨True, _, tree, composes, unchanged, fun slot value found => (by cases found),
    fun slot _ value found allowed each => ?_⟩
  rcases bound slot value found with none | ⟨member, other, read⟩
  · cases none
  · have only := inputsOnly _ listed
    unfold isInputsOnly at only
    rw [cut] at only
    have here := all_eq_true.mp only slot member
    simp only [other, Bool.false_or, Bool.and_eq_true, decide_eq_true_eq] at here
    obtain ⟨power, rfl⟩ := here
    exact tells_paramText (exponent.imp_right fun whole => whole (same.trans power)) read each

theorem sealed_logical {primitive bitwise truth : String}
    (listed : (primitive, bitwise, truth) ∈ logicalKernels) :
    (logical primitive bitwise truth).Sealed loose names v e := by
  refine sealed_of_default rfl isWord_connector fun made => ?_
  cases made
  have known := tables_classified.2 _ listed
  split
  · exact bare_ofText (Template.exists_composes known.2).choose_spec
  · exact bare_ofText (Template.exists_composes (isSome_of_isClassified known.1)).choose_spec

end Arithmetic

namespace Movement

open Elementwise

theorem composes_itself : (Template.ofText itself).Composes True (.name "in0") :=
  Template.composes_slot (by decide) (by decide) (by decide)

section

variable {names : List (Option String)} {v : Var} {e : Equation}

theorem sealed_copy : copy.Sealed loose names v e := by
  refine sealed_of_default rfl isWord_connector fun made => ?_
  cases made
  exact bare_ofText composes_itself

theorem sealed_devicePut : devicePut.Sealed loose names v e := by
  refine sealed_of_default rfl isWord_connector fun made => ?_
  unfold devicePut at made
  dsimp only at made
  split at made
  · cases made
  · cases made
    exact bare_ofText composes_itself

theorem sealed_of_first {reads : List Axis → List (Option String) → Equation →
    Outcome (Dict Access)} (known : op.reads? = some reads)
    (firstly : ReadsFirst reads) (connector : op.connector 0 = "__in0")
    (kernel : ∀ {axes t}, op.kernel axes names e = .ok t → t = .ofText itself) :
    op.Sealed loose names v e := by
  have given {inputs : Dict Access} (read : op.readsOf (axes v.shape) names e v.shape =
    .ok inputs) : reads (axes v.shape) names e = .ok inputs := by
    unfold readsOf at read
    rwa [known] at read
  constructor
  · intro inputs read entry member
    have read := given read
    rcases names with _ | ⟨_ | name, others⟩
    · cases firstly.missing read
      cases member
    · cases firstly.literal read
      cases member
    · obtain ⟨index, within, rfl, -⟩ := firstly.first mem_params read
      obtain rfl := mem_singleton.mp (Dict.mem_of_mem_ofList member)
      exact Access.element_over name within
  · intro inputs t filled code read made bound rendered
    cases kernel made
    refine reading_of_composes composes_itself rfl (fun slot value found => by cases found) bound
      rendered fun slot member value found => ?_
    obtain rfl : slot = "in0" := by simpa [Expr.names] using member
    rcases (bindInputs_bound bound).2 _ _ found with none | ⟨k, name?, atom, listed, slot,
      ⟨some, rfl⟩ | ⟨-, s, rfl⟩⟩
    · cases none
    · rw [Nat.zero_add] at slot ⊢
      cases slot_inj.mp ((rfl : "in" ++ (0 : Nat).repr = "in0").trans slot)
      obtain ⟨name, rfl⟩ := Option.isSome_iff_exists.mp some
      rw [connector]
      refine tells_word (by decide) (.inr (.inl ?_))
      obtain ⟨first, -⟩ := getElem?_zip_eq_some.mp listed
      rcases names with _ | ⟨name?, others⟩
      · cases first
      · cases first
        obtain ⟨index, -, rfl, -⟩ := firstly.first mem_params (given read)
        exact Dict.mem_keys_ofList.mpr mem_cons_self
    · exact tells_code s.value

theorem sealed_broadcast : broadcast.Sealed loose names v e :=
  sealed_of_first rfl (readsFirst_broadcast rfl) rfl fun made => by
    cases made
    rfl

theorem sealed_slice : slice.Sealed loose names v e :=
  sealed_of_first rfl (readsFirst_slice rfl) rfl fun made => by
    cases made
    rfl

theorem sealed_squeeze : squeeze.Sealed loose names v e :=
  sealed_of_first rfl (readsFirst_squeeze rfl) rfl fun made => by
    cases made
    rfl

theorem slot_apart (rest : String) (letter : ∃ c ∈ rest.toList, c.isDigit = false) (k : Nat) :
    "in" ++ rest ≠ "in" ++ k.repr := by
  intro same
  rw [String.append_right_inj] at same
  obtain ⟨c, member, letter⟩ := letter
  rw [same, Nat.toList_repr] at member
  rw [isDigit_toDigits member] at letter
  cases letter

theorem sealed_iota : iota.Sealed loose names v e where
  reads read entry member := by
    cases read
    cases member
  kernel {inputs t filled code} read made bound rendered := by
    obtain ⟨dim, -, made⟩ := bind_eq_ok.mp made
    split at made
    next axis found =>
      cases made
      have composes : (Template.ofText "\x7bindex\x7d").Composes True (.name "index") :=
        Template.composes_slot (by decide) (by decide) (by decide)
      refine reading_of_composes composes (by rfl) (fun slot value found => by cases found) bound
        rendered fun slot named value here => ?_
      obtain rfl : slot = "index" := by simpa [Expr.names] using named
      have member := mem_of_getElem? found
      rcases (bindInputs_bound bound).2 _ _ here with same | ⟨k, name?, atom, listed, slot, -⟩
      · cases same
        exact tells_word (isWord_axes v.shape axis member) (.inr (.inr (mem_map_of_mem member)))
      · exact absurd slot (slot_apart "dex" ⟨'d', by decide, rfl⟩ _)
    · cases made

def readsOne (name code : String) : Bool :=
  match Assignment.parse code with
  | .ok a => a.value.names.all (· = name) && a.value.subscripts.isEmpty
  | .error _ => true

theorem reading_of_readsOne {allowed : String → Prop} {name code : String} (here : allowed name)
    (holds : readsOne name code = true) : Reading allowed code := by
  intro a parsed
  unfold readsOne at holds
  rw [parsed] at holds
  simp only [Bool.and_eq_true, all_eq_true, decide_eq_true_eq, List.isEmpty_iff] at holds
  exact ⟨fun n member => holds.1 n member ▸ here, holds.2⟩

theorem sealed_convert : convert.Sealed loose names v e := by
  refine sealed_of_default rfl isWord_connector fun made => ?_
  obtain ⟨tree, composes, only⟩ := composes_convert made
  refine bare_of_composes composes fun slot value found k same => ?_
  have lists := congrArg String.toList ((only slot value found).symm.trans same)
  rw [String.toList_append] at lists
  cases lists

theorem isWord_selectConnector (k : Nat) : isWord (select.connector k) = true := by
  cases k with
  | zero => decide
  | succ k => exact isWord_connector k

theorem sealed_select : select.Sealed loose names v e := by
  refine sealed_of_default rfl isWord_selectConnector fun made => ?_
  obtain ⟨total, composes, unbound, -⟩ := composes_select made
  refine bare_of_composes composes fun slot value found => ?_
  rw [unbound] at found
  cases found

end

end Movement

theorem sealed_operations (member : op ∈ operations) (same : e.primitive = op.primitive)
    (exponent : loose "NaN" ∨ e.WholeExponent) : op.Sealed loose names v e := by
  simp only [operations, mem_append, mem_map, mem_cons, not_mem_nil, or_false] at member
  rcases member with (⟨⟨primitive, text⟩, known, rfl⟩ | ⟨⟨primitive, bitwise, truth⟩, known,
    rfl⟩) | rfl | rfl | rfl | rfl | rfl | rfl | rfl | rfl
  · exact Arithmetic.sealed_operation known same exponent
  · exact Arithmetic.sealed_logical known
  · exact Movement.sealed_broadcast
  · exact Movement.sealed_convert
  · exact Movement.sealed_copy
  · exact Movement.sealed_devicePut
  · exact Movement.sealed_iota
  · exact Movement.sealed_select
  · exact Movement.sealed_slice
  · exact Movement.sealed_squeeze

end TraceFlow
