import TraceFlow.Proofs.SwappedMaps

set_option autoImplicit false

namespace TraceFlow

open Builder Kernel List

variable {i : Nat} {atoms : List Atom} {names : List (Option String)} {e : Equation}
  {pieces : List Template.Piece}

def Equation.withLiteral (e : Equation) (i : Nat) (s : Scalar) : Equation :=
  { e with inputs := e.inputs.set i (.literal s) }

def Scalar.Proper (s : Scalar) : Prop :=
  s.value.cast s.elem = s.value

theorem Scalar.Proper.whole {s : Scalar} (proper : s.Proper) (whole : s.elem.isFloat = false) :
    Whole s.value := by
  have cast : s.value.cast s.elem = s.value := proper
  rw [← cast]
  generalize s.elem = elem at whole
  cases elem with
  | float32 | float64 => cases whole
  | _ => exact trivial

theorem map_set_same {α β : Type} {f : α → β} {xs : List α} {a b : α} (found : xs[i]? = some a)
    (same : f b = f a) : (xs.set i b).map f = xs.map f := by
  obtain ⟨inside, rfl⟩ := List.getElem?_eq_some_iff.mp found
  rw [map_set, same, ← getElem_map f, set_getElem_self]
  simpa using inside

theorem resolved_withLiteral {d : Draft} (resolved : List.Forall₂ (Resolved d true) atoms names)
    (i : Nat) (s : Scalar) : List.Forall₂ (Resolved d true) (atoms.set i (.literal s))
      (names.set i none) := by
  induction resolved generalizing i with
  | nil => exact .nil
  | cons here others ih =>
    cases i with
    | zero => exact .cons rfl others
    | succ i => exact .cons here (ih i)

namespace Elementwise

variable {op : Elementwise} {shape : List Nat} {d : Dict Access}

theorem window?_element (name : String) (index : List Index) :
    Effect.window? (.element name index) = none := by
  cases index <;> rfl

theorem get?_defaultReadsFrom {axes : List Axis} {connector : Nat → String} {k : Nat}
    (read : defaultReadsFrom axes shape connector k (names.zip atoms) = .ok d) :
    d.Sorted ∧ ∀ c a, d.get? c = some a → ∃ j name index, c = connector (k + j) ∧ names[j]? = some
      (some name) ∧ a = .element name index := by
  induction names generalizing k atoms d with
  | nil =>
    cases read
    exact ⟨Dict.sorted_empty, fun c a found => by cases found⟩
  | cons name? names ih =>
    cases atoms with
    | nil =>
      cases read
      exact ⟨Dict.sorted_empty, fun c a found => by cases found⟩
    | cons atom atoms =>
      have later {d : Dict Access}
        (read : defaultReadsFrom axes shape connector (k + 1) (names.zip atoms) = .ok d) :
        d.Sorted ∧ ∀ c a,
          d.get? c = some a → ∃ j name index, c = connector (k + j) ∧
          (name? :: names)[j]? = some (some name) ∧ a = .element name index := by
        obtain ⟨sorted, each⟩ := ih read
        refine ⟨sorted, fun c a found => ?_⟩
        obtain ⟨j, name, index, rfl, listed, rfl⟩ := each c a found
        exact ⟨j + 1, name, index, by rw [Nat.add_assoc, Nat.add_comm 1 j], listed, rfl⟩
      cases name? with
      | none => exact later read
      | some name =>
        obtain ⟨index, -, read⟩ := bind_eq_ok.mp read
        obtain ⟨others, rest, read⟩ := bind_eq_ok.mp read
        cases read
        obtain ⟨sorted, each⟩ := later rest
        refine ⟨Dict.sorted_insert sorted _ _, fun c a found => ?_⟩
        rw [Dict.get?_insert] at found
        split at found
        next same =>
          cases found
          exact ⟨0, name, index, same, rfl, rfl⟩
        · exact each c a found

theorem get?_defaultReads {axes : List Axis} (read : op.defaultReads axes names e shape = .ok d)
    {c : String} {a : Access} (found : d.get? c = some a) :
    ∃ j name index, c = op.connector j ∧ names[j]? = some (some name) ∧
    a = .element name index := by
  unfold defaultReads at read
  split at read
  · cases read
  · obtain ⟨j, name, index, rfl, listed, rfl⟩ := (get?_defaultReadsFrom read).2 c a found
    exact ⟨j, name, index, by rw [Nat.zero_add], listed, rfl⟩

theorem both_defaultReadsFrom {axes : List Axis} {connector : Nat → String}
    (one : ∀ j k, connector j = connector k → j = k)
    {d : Draft} {k : Nat} (resolved : List.Forall₂ (Resolved d true) atoms names) {x : Var}
    {name : String} (operand : atoms[i]? = some (.var x)) (scalar : x.shape = [])
    (named : names[i]? = some (some name)) (s : Scalar) :
    Outcome.Both (Dict.Drops (connector (k + i)) (.element name [.constant 0]))
      (defaultReadsFrom axes shape connector k (names.zip atoms))
      (defaultReadsFrom axes shape connector k
        ((names.set i none).zip (atoms.set i (.literal s)))) := by
  induction resolved generalizing k i with
  | nil => cases operand
  | @cons atom name? atoms names here _ ih =>
    cases i with
    | zero =>
      obtain rfl := Option.some.inj operand
      obtain rfl := Option.some.inj named
      have index : defaultIndex axes x.shape shape = .ok [.constant 0] := by rw [scalar]; rfl
      have whole : defaultReadsFrom axes shape connector k
        ((some name :: names).zip (.var x :: atoms)) = (do
          let others ← defaultReadsFrom axes shape connector (k + 1) (names.zip atoms)
          return others.insert (connector k) (.element name [.constant 0])) := by
        rw [zip_cons_cons, defaultReadsFrom, Atom.shape, index, ok_bind]
      have fewer : defaultReadsFrom axes shape connector k (((some name :: names).set 0 none).zip
        ((.var x :: atoms).set 0 (.literal s))) =
          defaultReadsFrom axes shape connector (k + 1) (names.zip atoms) := rfl
      rw [whole, fewer, Nat.add_zero]
      cases read : defaultReadsFrom axes shape connector (k + 1) (names.zip atoms) with
      | error failure => exact .fails _ _
      | ok others =>
        obtain ⟨sorted, each⟩ := get?_defaultReadsFrom read
        refine .gives ⟨Dict.sorted_insert sorted _ _, sorted, by simp, ?_,
          fun other apart => by simp [apart]⟩
        rw [Option.eq_none_iff_forall_ne_some]
        intro a found
        obtain ⟨j, _, _, same, -⟩ := each _ a found
        have := one _ _ same
        omega
    | succ i =>
      have later := @ih i (k + 1) operand named
      rw [Nat.add_assoc, Nat.add_comm 1 i] at later
      cases name? with
      | none => exact later
      | some first =>
        rw [set_cons_succ, set_cons_succ, zip_cons_cons, zip_cons_cons, defaultReadsFrom,
          defaultReadsFrom]
        refine (Outcome.Both.refl _).bind ?_
        rintro index _ rfl
        refine later.bind fun d d' drops => .gives ?_
        have apart : connector (k + (i + 1)) ≠ connector k := fun same => by
          have := one _ _ same
          omega
        refine ⟨Dict.sorted_insert drops.sorted _ _, Dict.sorted_insert drops.sorted' _ _, ?_, ?_,
          fun other away => ?_⟩
        · rw [Dict.get?_insert, if_neg apart, drops.here]
        · rw [Dict.get?_insert, if_neg apart, drops.gone]
        · rw [Dict.get?_insert, Dict.get?_insert, drops.others other away]

theorem both_defaultReads (one : ∀ j k, op.connector j = op.connector k → j = k) {axes : List Axis}
    {d : Draft} (resolved : List.Forall₂ (Resolved d true) e.inputs names) {x : Var} {name : String}
    (operand : e.inputs[i]? = some (.var x)) (scalar : x.shape = [])
    (named : names[i]? = some (some name)) (s : Scalar) :
    Outcome.Both (Dict.Drops (op.connector i) (.element name [.constant 0]))
      (op.defaultReads axes names e shape)
      (op.defaultReads axes (names.set i none) (e.withLiteral i s) shape) := by
  have reads := @both_defaultReadsFrom i e.inputs names shape axes op.connector one d 0 resolved x
    name operand scalar named s
  rw [Nat.zero_add] at reads
  -- Whether an operand has a wrong rank is a matter of shapes, which the literal does not change.
  have wrong (atoms : List Atom) :
    (atoms.find? fun atom => !atom.shape.isEmpty && atom.shape.length != shape.length).isSome =
      ((atoms.map Atom.shape).find? fun found => !found.isEmpty &&
        found.length != shape.length).isSome := by
    rw [find?_map, Option.isSome_map]
    rfl
  have same := wrong (e.withLiteral i s).inputs
  have shapes : (e.withLiteral i s).inputs.map Atom.shape = e.inputs.map Atom.shape :=
    map_set_same operand scalar.symm
  rw [shapes, ← wrong] at same
  unfold defaultReads
  cases found : e.inputs.find? fun atom => !atom.shape.isEmpty &&
    atom.shape.length != shape.length with
  | none =>
    rw [found, Option.isSome_none, Option.isSome_eq_false_iff, Option.isNone_iff_eq_none] at same
    rw [same]
    exact reads
  | some atom =>
    rw [found, Option.isSome_some] at same
    obtain ⟨atom', found'⟩ := Option.isSome_iff_exists.mp same
    rw [found']
    exact .fails _ _

structure Simple (op : Elementwise) : Prop where
  reads : op.reads? = none
  connector : op.connector = fun i => "__in" ++ i.repr
  kernel : ∀ axes names names' e e', e'.params = e.params →
    e'.inputs.map Atom.elem = e.inputs.map Atom.elem →
    op.kernel axes names' e' = op.kernel axes names e

theorem Simple.node_eq (simple : op.Simple) {d : Draft}
    (resolved : List.Forall₂ (Resolved d true) e.inputs names) (output : String) (v : Var) :
    op.node names output v e = (do
      let inputs ← op.defaultReads (axes v.shape) names e v.shape
      let template ← op.kernel (axes v.shape) names e
      let code ← (bindAtoms (fun i => "__in" ++ i.repr) 0 e.inputs template).render
      return {
        label := op.primitive ++ "_" ++ output, axes := axes v.shape, inputs, dynamic := {},
        code := "__out = " ++ code,
               outputs := Dict.ofList [("__out", .element output (target v.shape))] }) := by
  unfold node
  simp only [simple.reads, simple.connector, bindInputs_eq resolved, ok_bind]

end Elementwise

namespace Arithmetic

variable {params : Params}

theorem exponent_of_slot {slot : String} (listed : slot ∈ slotNames)
    (other : isInputSlot slot = false) : slot = Expr.exponentName := by
  have table : ∀ slot ∈ slotNames, isInputSlot slot = false → slot = Expr.exponentName := by
    decide +kernel
  exact table slot listed other

theorem legible_paramText {name text : String} (read : paramText params name = .ok text) :
    Legible ["NaN"] text.toList := by
  unfold paramText at read
  split at read
  · cases read
    exact legible_decimal _
  · obtain ⟨i, -, read⟩ := bind_eq_ok.mp read
    cases read
    exact legible_integer i

theorem get?_bindParams {slots : List String} {template filled : Template}
    (listed : ∀ slot ∈ slots, slot ∈ slotNames)
    (bound : bindParams params slots template = .ok filled) : filled.text = template.text ∧
    ∀ slot value,
      filled.bindings.get? slot = some value → template.bindings.get? slot = some value ∨
      slot = Expr.exponentName ∧ Legible ["NaN"] value.toList := by
  obtain ⟨text, each⟩ := bindParams_bound bound
  exact ⟨text, fun slot value found => (each slot value found).imp_right fun known =>
    ⟨exponent_of_slot (listed slot known.1) known.2.1, legible_paramText known.2.2⟩⟩

structure Opened (text : String) (template : Template) : Prop where
  text : template.text = text
  bound : ∀ slot value, template.bindings.get? slot = some value → slot = Expr.exponentName ∧
    Legible ["NaN"] value.toList

theorem opened_ofText (text : String) : Opened text (.ofText text) :=
  ⟨rfl, fun slot value found => by cases found⟩

structure Swappable (op : Elementwise) (e : Equation) (text : String) : Prop where
  simple : op.Simple
  opened : ∀ axes names template, op.kernel axes names e = .ok template → Opened text template

theorem swappable_operation {primitive text : String} {formula : Expr}
    (known : Template.Formula text pieces formula)
    (e : Equation) : Swappable (operation primitive text) e text where
  simple := {
    reads := rfl
    connector := rfl
    kernel axes names names' e e' params elems := by simp only [operation, params] }
  opened axes names template made := by
    obtain ⟨slots, listed, made⟩ := bind_eq_ok.mp made
    obtain ⟨found, cut, listed⟩ := bind_eq_ok.mp listed
    cases listed
    have same : found = pieces := by
      rw [Template.pieces] at cut
      have known : Template.textPieces [] (Template.ofText text).text.toList = .ok pieces :=
        known.cut
      rw [known] at cut
      exact (Except.ok.inj cut).symm
    subst same
    obtain ⟨tokens, sound, -⟩ := known.parses
    obtain ⟨kept, each⟩ := get?_bindParams (fun slot member => by
      obtain ⟨piece, listed, named⟩ := mem_filterMap.mp member
      cases piece with
      | text chars => cases named
      | slot name =>
        cases named
        exact sound.slots name (Template.slot_mem_assigned.mpr listed)) made
    refine ⟨kept, fun slot value bound => ?_⟩
    rcases each slot value bound with impossible | exponent
    · cases impossible
    · exact exponent

theorem swappable_logical (primitive bitwise truth : String) (e : Equation) :
    Swappable (logical primitive bitwise truth) e
      (if e.inputs.all fun atom => atom.elem = .bool then truth else bitwise) where
  simple := {
    reads := rfl
    connector := rfl
    kernel axes names names' e e' params elems := by
      have all (atoms : List Atom) :
        (atoms.all fun atom => atom.elem = .bool) = (atoms.map Atom.elem).all fun elem =>
        elem = .bool := by
        rw [all_map]
        rfl
      simp only [logical, all, elems] }
  opened axes names template made := by
    cases made
    exact opened_ofText _

def primitives : List String :=
  kernels.map Prod.fst ++ logicalKernels.map Prod.fst

theorem exists_swappable (listed : e.primitive ∈ primitives) {t : ElemType}
    (typed : ∀ atom ∈ e.inputs, atom.elem = t)
    (some : e.inputs ≠ []) : ∃ op ∈ operations, ∃ text pieces formula, op.primitive = e.primitive ∧
    Swappable op e text ∧
      Template.Formula text pieces formula ∧ (t ≠ .bool → Classified e.primitive formula) := by
  rcases mem_append.mp listed with arithmetic | logic
  · obtain ⟨⟨primitive, text⟩, member, same⟩ := mem_map.mp arithmetic
    obtain ⟨pieces, formula, known, classified⟩ := exists_classified (tables_classified.1 _ member)
    refine ⟨operation primitive text, ?_, text, pieces, formula, same, swappable_operation known e,
      known, fun _ => same ▸ classified⟩
    exact mem_append_left _ (mem_append_left _ (mem_map_of_mem member))
  · obtain ⟨⟨primitive, bitwise, truth⟩, member, same⟩ := mem_map.mp logic
    have operation : logical primitive bitwise truth ∈ operations :=
      mem_append_left _ (mem_append_right _ (mem_map_of_mem member))
    have swappable := swappable_logical primitive bitwise truth e
    by_cases bool : t = .bool
    · have all : (e.inputs.all fun atom => atom.elem = .bool) = true := by
        rw [all_eq_true]
        exact fun atom member => decide_eq_true (bool ▸ typed atom member)
      rw [all, if_pos rfl] at swappable
      obtain ⟨formula, known⟩ := Option.isSome_iff_exists.mp (tables_classified.2 _ member).2
      obtain ⟨pieces, known⟩ := Template.exists_formula known
      exact ⟨_, operation, truth, pieces, formula, same, swappable, known,
        fun other => absurd bool other⟩
    · have all : (e.inputs.all fun atom => atom.elem = .bool) = false := by
        obtain ⟨atom, member⟩ := exists_mem_of_ne_nil _ some
        rw [all_eq_false]
        exact ⟨atom, member, by simpa [typed atom member] using bool⟩
      rw [all, if_neg Bool.false_ne_true] at swappable
      obtain ⟨pieces, formula, known, classified⟩ :=
        exists_classified (tables_classified.2 _ member).1
      exact ⟨_, operation, bitwise, pieces, formula, same, swappable, known,
        fun _ => same ▸ classified⟩

end Arithmetic

theorem Arithmetic.Opened.swaps {text : String} {template : Template}
    (opened : Arithmetic.Opened text template) {x : Var}
    (operand : atoms[i]? = some (.var x)) (whole : ∀ s, .literal s ∈ atoms → Whole s.value)
    (s : Scalar) :
    Template.Swaps i s.value (Elementwise.bindAtoms (fun k => "__in" ++ k.repr) 0 atoms template)
      (Elementwise.bindAtoms (fun k => "__in" ++ k.repr) 0 (atoms.set i (.literal s))
        template) := by
  have bound (atoms : List Atom) (k : Nat) :=
    Elementwise.get?_bindAtoms (fun k => "__in" ++ k.repr) 0 k atoms template
  simp only [Nat.zero_add] at bound
  have inside := (List.getElem?_eq_some_iff.mp operand).1
  have apart {slot : String} (other : ∀ k, slot ≠ "in" ++ Nat.repr k) (atoms : List Atom) :=
    Elementwise.get?_bindAtoms_other (fun k => "__in" ++ k.repr) 0 atoms template fun k _ => other k
  refine ⟨?_, fun slot other => ?_, ?_, ?_, fun slot value found => ?_⟩
  · rw [Elementwise.text_bindAtoms, Elementwise.text_bindAtoms]
  · by_cases numbered : ∃ k, slot = "in" ++ Nat.repr k
    · obtain ⟨k, rfl⟩ := numbered
      have away : i ≠ k := fun same => other (same ▸ rfl)
      rw [bound, bound, getElem?_set_ne away]
    · have other := not_exists.mp numbered
      rw [apart other, apart other]
  · rw [bound, operand]
    rfl
  · rw [bound, getElem?_set_self inside]
    rfl
  · by_cases numbered : ∃ k, slot = "in" ++ Nat.repr k
    · obtain ⟨k, rfl⟩ := numbered
      rw [bound, Option.or_eq_some_iff] at found
      rcases found with here | ⟨-, there⟩
      · obtain ⟨atom, listed, rfl⟩ := Option.map_eq_some_iff.mp here
        cases atom with
        | var v => exact .connector k
        | literal s => exact .literal k (whole s (mem_of_getElem? listed))
      · exact absurd (opened.bound _ _ there).1 (slot_ne_exponent k)
    · rw [apart (not_exists.mp numbered)] at found
      obtain ⟨rfl, legible⟩ := opened.bound _ _ found
      exact .exponent legible

structure MapNode.Swapped (i : Nat) (array : String) (v : Datum) (pieces : List Template.Piece)
    (e : Expr) (names : List (Option String)) (output : String) (m m' : MapNode) : Prop where
  swaps : m.Swaps i array m'
  reads : ∀ c a, m.inputs.get? c = some a → some a.array ∈ names
  writes : ∃ index, m.outputs = Dict.ofList [("__out", .element output index)]
  kernel : ∃ t t', Template.Swapped i v pieces e t t' ∧ m.code = "__out = " ++
    String.ofList (Template.fillText t.texts pieces) ∧
    m'.code = "__out = " ++ String.ofList (Template.fillText t'.texts pieces)

theorem Elementwise.both_node {op : Elementwise} {text : String} {formula : Expr}
    (swappable : Arithmetic.Swappable op e text) (known : Template.Formula text pieces formula)
    {d : Draft} (resolved : List.Forall₂ (Resolved d true) e.inputs names) {x : Var} {name : String}
    (operand : e.inputs[i]? = some (.var x))
    (scalar : x.shape = []) (named : names[i]? = some (some name))
    (whole : ∀ s, .literal s ∈ e.inputs → Whole s.value) {s : Scalar}
    (elem : s.elem = x.elem) (fits : Whole s.value) (written : Written s.value) (output : String)
    (v : Var) : Outcome.Both (MapNode.Swapped i name s.value pieces formula names output)
      (op.node names output v e) (op.node (names.set i none) output v (e.withLiteral i s)) := by
  obtain ⟨simple, opened⟩ := swappable
  have one : ∀ j k, op.connector j = op.connector k → j = k := by
    rw [simple.connector]
    exact fun j k same => Text.repr_inj.mp ((String.append_right_inj "__in").mp same)
  have reads := @both_defaultReads i names e op v.shape one (axes v.shape) d resolved x name operand
    scalar named s
  rw [simple.connector] at reads
  rw [simple.node_eq resolved, simple.node_eq (resolved_withLiteral resolved i s),
    simple.kernel (axes v.shape) names (names.set i none) e (e.withLiteral i s) rfl
      (map_set_same operand elem)]
  refine (reads.with_left fun inputs read (c a) (found : inputs.get? c = some a) =>
    get?_defaultReads read found).bind ?_
  rintro inputs inputs' ⟨drops, each⟩
  cases made : op.kernel (axes v.shape) names e with
  | error failure => exact .fails _ _
  | ok template =>
    have opened := opened _ _ _ made
    have swaps := opened.swaps operand whole s
    have formula : Template.Formula (bindAtoms (fun k => "__in" ++ k.repr) 0 e.inputs template).text
      pieces formula := by
      rw [text_bindAtoms, opened.text]
      exact known
    refine (swaps.both_render formula).bind ?_
    rintro _ _ ⟨texts, rfl, rfl⟩
    refine .gives ⟨⟨rfl, rfl, rfl, rfl, drops, fun c a found => ?_, fun c a found => ?_⟩,
      fun c a found => ?_, ⟨_, rfl⟩,
      _, _, ⟨swaps, formula, texts, fits, written⟩, rfl, rfl⟩
    · obtain ⟨j, name, index, -, -, rfl⟩ := each c a found
      exact window?_element name index
    · obtain ⟨j, name, index, rfl, -, -⟩ := each c a found
      exact ⟨j, by rw [simple.connector]⟩
    · obtain ⟨j, name, index, -, listed, rfl⟩ := each c a found
      exact mem_of_getElem? listed

theorem MapNode.Swapped.both_prepare {array output : String} {v : Datum} {e : Expr}
    {m m' : MapNode} (swapped : MapNode.Swapped i array v pieces e names output m m') :
    Outcome.Both (fun body body' => body.node = m ∧ body.output.array = output ∧ ∃ t t',
      Effect.MapBody.Swaps i array v pieces e t t' body body')
      (Program.prepare m) (Program.prepare m') := by
  obtain ⟨index, writes⟩ := swapped.writes
  obtain ⟨t, t', kernel, code, code'⟩ := swapped.kernel
  have writes' := swapped.swaps.outputs.trans writes
  rw [Program.prepare, Program.prepare, code, code']
  refine (kernel.swaps.both_parse kernel.whole kernel.written kernel.formula kernel.texts).bind ?_
  rintro _ _ ⟨scans, rfl, rfl⟩
  simp only [writes, writes']
  exact .gives ⟨rfl, rfl, t, t', swapped.swaps, kernel, scans, rfl, rfl, rfl⟩

end TraceFlow
