import TraceFlow.Proofs.ElementwiseMaps
import TraceFlow.Proofs.IntegerOperations
import TraceFlow.Proofs.LiteralOperands

set_option autoImplicit false

namespace TraceFlow

open Builder Kernel Lowering List

namespace IntegerOp

variable {op : IntegerOp}

theorem isInputSlot_slotName {i : Nat} (inside : i < op.arity) : Arithmetic.isInputSlot
    (slotName i) = true := by
  have few : op.arity ≤ 3 := by cases op <;> decide
  have : i < 3 := by omega
  interval_cases i <;> decide

theorem bindParams_eq {slots : List String}
    (operands : ∀ slot ∈ slots, ∃ i < op.arity, slot = slotName i) (params : Params)
    (template : Template) : Arithmetic.bindParams params slots template = .ok template := by
  induction slots with
  | nil => rfl
  | cons slot slots ih =>
    obtain ⟨⟨i, inside, rfl⟩, others⟩ := forall_mem_cons.mp operands
    rw [Arithmetic.bindParams, if_pos (isInputSlot_slotName inside), ih others]

section

variable {op : IntegerOp} {t : ElemType} {e : Equation} {vs : List Var}

theorem exists_composed (primitive : e.primitive = op.primitive) (inputs : e.inputs = vs.map .var)
    (counted : vs.length = op.arity)
    (integer : t.isInteger = true) (typed : ∀ v ∈ vs, v.elem = t) : ∃ operation ∈ operations,
    e.primitive = operation.primitive ∧
      ∃ text, operation.Composed e (.ofText text) (op.formula slotName) := by
  obtain ⟨kernel, member, named, pieces, formula⟩ := op.exists_kernel
  have arity : e.inputs.length = op.arity := by rw [inputs, length_map, counted]
  have composed {operation : Elementwise} (reads : operation.reads? = none)
    (connector : operation.connector = fun i => "__in" ++ i.repr)
      (made : ∀ axes names, operation.kernel axes names e = .ok (.ofText kernel.2)) :
      operation.Composed e (.ofText kernel.2) (op.formula slotName) := by
    refine ⟨reads, fun i j same => ?_, fun i => ?_, by simp [inputs], fun axes array => made axes _,
      rfl, formula.composes, arity ▸ op.names_formula⟩
    · rw [connector] at same
      exact Text.repr_inj.mp ((String.append_right_inj _).mp same)
    · rw [connector]
      exact isWord_numbered (by decide) i
  rcases mem_append.mp member with arithmetic | logic
  · refine ⟨Arithmetic.operation kernel.1 kernel.2,
      mem_append_left _ (mem_append_left _ (mem_map_of_mem arithmetic)),
      primitive.trans named.symm, kernel.2, composed rfl rfl fun axes names => ?_⟩
    have listed : (Template.ofText kernel.2).slots = .ok (pieces.filterMap Template.slotName?) := by
      have cut : Template.textPieces [] (Template.ofText kernel.2).text.toList = .ok pieces :=
        formula.cut
      rw [Template.slots, Template.pieces, cut]
      rfl
    rw [Arithmetic.operation]
    dsimp only
    rw [listed, ok_bind]
    refine @bindParams_eq op _ (fun slot member => ?_) e.params _
    obtain ⟨piece, found, named⟩ := mem_filterMap.mp member
    cases piece with
    | text chars => cases named
    | slot name =>
      cases named
      exact op.names_formula _ (formula.slots name found)
  · obtain ⟨⟨name, bitwise, truth⟩, listed, rfl⟩ := mem_map.mp logic
    have other : (e.inputs.all fun atom => atom.elem = .bool) = false := by
      obtain ⟨v, member⟩ := exists_mem_of_length_pos (l :=
        vs) (by rw [counted]; cases op <;> decide)
      rw [all_eq_false]
      refine ⟨.var v, inputs ▸ mem_map_of_mem member, ?_⟩
      have : t ≠ .bool := by rintro rfl; cases integer
      simpa [Atom.elem, typed v member] using this
    refine ⟨Arithmetic.logical name bitwise truth,
      mem_append_left _ (mem_append_right _ (mem_map_of_mem listed)),
      primitive.trans named.symm, bitwise, composed rfl rfl fun axes names => ?_⟩
    rw [Arithmetic.logical]
    dsimp only
    rw [other, if_neg Bool.false_ne_true]

end

-- An equation of a primitive on arrays of an integer type, as a function of its operands. Every
-- array has room.
structure Equates (op : IntegerOp) (t : ElemType) (e : Equation) (inputs operands : List Var)
    (out : Var) : Prop where
  primitive : e.primitive = op.primitive
  pure : e.effectful = false
  reads : e.inputs = operands.map .var
  counted : operands.length = op.arity
  integer : t.isInteger = true
  typed : ∀ v ∈ operands, v.elem = t
  outputs : e.outputs = [out]
  result : out.elem = op.result t
  closed : ∀ v, v ∈ inputs ↔ v ∈ operands
  nameable : Var.Nameable (inputs ++ [out])
  fits : ∀ v ∈ inputs ++ [out], Shape.Fits v.shape

namespace Equates

variable {op : IntegerOp} {t : ElemType} {e : Equation} {inputs operands : List Var} {out : Var}
  (equates : op.Equates t e inputs operands out)

include equates

theorem mem_inputs {v : Var} : .var v ∈ e.inputs ↔ v ∈ operands := by
  rw [equates.reads]
  simp

theorem single : e.Single inputs out where
  pure := equates.pure
  outputs := equates.outputs
  closed v member := (equates.closed v).mpr (equates.mem_inputs.mp member)
  nameable := equates.nameable
  fits := equates.fits
  whole v member := by
    have integer := equates.integer
    have whole : t.isFloat = false := by cases t <;> first | rfl | cases integer
    rcases mem_append.mp member with input | output
    · rw [equates.typed v ((equates.closed v).mp input)]
      exact whole
    · cases mem_singleton.mp output
      rw [equates.result]
      cases op <;> first | rfl | exact whole

theorem lowers_iff : Outcome.Succeeds (lower .builtin (e.over inputs) none (.new 0)).1 ↔
    ∀ v ∈ operands, Shape.Broadcasts v.shape out.shape := by
  obtain ⟨operation, listed, same, text, composed⟩ :=
    exists_composed equates.primitive equates.reads equates.counted equates.integer equates.typed
  simpa only [equates.mem_inputs] using (composed.evaluate listed same equates.single).1

end Equates

theorem alike_of_cast {t : ElemType} (integer : t.isInteger = true) {ds : List Datum}
    (typed : ∀ d ∈ ds, d.cast t = d) : Alike ds := by
  cases signed : t.isSigned with
  | true =>
    refine .inl fun d member => ?_
    rw [← typed d member]
    cases t <;> first | contradiction | exact ⟨_, rfl⟩
  | false =>
    refine .inr fun d member => ?_
    rw [← typed d member]
    cases t <;> first | contradiction | exact ⟨_, rfl⟩

theorem mapM_eq_halt {α β : Type} {f : α → Outcome β} {failure : Failure} {xs : List α}
    (each : ∀ x ∈ xs, (f x).Succeeds ∨ f x = .error failure)
    (fails : ∃ x ∈ xs, f x = .error failure) : xs.mapM f = .error failure := by
  induction xs with
  | nil =>
    obtain ⟨x, member, -⟩ := fails
    cases member
  | cons x xs ih =>
    obtain ⟨here, each⟩ := forall_mem_cons.mp each
    rw [mapM_cons]
    rcases here with ⟨y, here⟩ | here
    · obtain ⟨x', member, fails⟩ := fails
      rcases mem_cons.mp member with rfl | later
      · rw [here] at fails
        cases fails
      · rw [here, ok_bind, ih each ⟨x', later, fails⟩]
        rfl
    · rw [here]
      rfl

namespace Equates

variable {op : IntegerOp} {t : ElemType} {e : Equation} {inputs operands : List Var} {out : Var}
  (equates : op.Equates t e inputs operands out)

include equates

theorem exists_outcomes (broadcasts : ∀ v ∈ operands, Shape.Broadcasts v.shape out.shape)
    {specs : List ArgSpec}
    (declares : List.Forall₂ ArgSpec.Declares specs inputs) {args : List Argument}
    (described : describeCall args = .ok specs)
    (regular : ∀ a ∈ args, a.Regular) {given : Var → List Datum}
    (elements : List.Forall₂ (fun v a => Argument.elements a = .ok (given v)) inputs args)
    (options : Options) : (∀ v ∈ operands, (given v).length = v.shape.prod ∧ ∀ d ∈ given v,
      d.cast t = d) ∧ ((∀ failure, ((Shape.indices (arrayShape out)).mapM fun index => op.apply
        (operands.map fun v => Elementwise.elementAt v (given v) index)) = .error failure →
        (e.over inputs).evaluate specs options args = .error failure) ∧
      ∀ datum : List Nat → Datum, (∀ index ∈ Shape.indices (arrayShape out),
          op.apply (operands.map fun v => Elementwise.elementAt v (given v) index) = .ok
            (datum index)) →
        ∃ r, (e.over inputs).evaluate specs options args = .ok [r] ∧ r.elem = out.elem ∧
        r.shape = arrayShape out ∧
          r.values = .ok ((Shape.indices (arrayShape out)).map fun index => (datum index).cast
            out.elem)) := by
  obtain ⟨operation, listed, same, text, composed⟩ :=
    exists_composed equates.primitive equates.reads equates.counted equates.integer equates.typed
  obtain ⟨typed, ends⟩ := (composed.evaluate listed same equates.single).2
    (by simpa only [equates.mem_inputs] using broadcasts) specs args given options
    ⟨described, declares, regular, elements⟩
  have ends := ends (fun index => op.apply (operands.map fun v => Elementwise.elementAt v (given v)
    index)) fun index _ leaf scope values => by
    refine eval_formula (by rw [length_map, equates.counted]) fun j d known => ?_
    rw [getElem?_map, Option.map_eq_some_iff] at known
    obtain ⟨v, known, rfl⟩ := known
    exact values j (.var v) (by rw [equates.reads, getElem?_map, known]; rfl)
  refine ⟨fun v member => ?_, fun failure stops => ?_, fun datum gives => ?_⟩
  · have elements := typed v ((equates.closed v).mpr member)
    exact ⟨elements.counted, equates.typed v member ▸ elements.typed⟩
  · rw [stops] at ends
    exact ends
  · rw [mapM_eq_ok.mpr (forall₂_map_right_iff.mpr (forall₂_same.mpr gives))] at ends
    obtain ⟨r, evaluated, elem, shape, values⟩ := ends
    exact ⟨r, evaluated, elem, shape, by rw [values, map_map]; rfl⟩

end Equates

-- The numbers that the operands of an elementwise operation hold at an index of the output.
def numbersAt (operands : List Var) (given : Var → List Datum) (index : List Nat) : List Int :=
  operands.map fun v => (Elementwise.elementAt v (given v) index).toInt

-- An elementwise primitive on integers lowers just if its operands broadcast.
theorem evaluate_elementwise {op : IntegerOp} {t : ElemType} {e : Equation}
    {inputs operands : List Var} {out : Var} (equates : op.Equates t e inputs operands out) :
    (Outcome.Succeeds (lower .builtin (e.over inputs) none (.new 0)).1 ↔ ∀ v ∈ operands,
      Shape.Broadcasts v.shape out.shape) ∧ ((∀ v ∈ operands, Shape.Broadcasts v.shape out.shape) →
        ∀ (specs : List ArgSpec) (args : List Argument) (given : Var → List Datum)
        (options : Options),
        describeCall args = .ok specs → List.Forall₂ ArgSpec.Declares specs inputs →
        (∀ a ∈ args, a.Regular) →
        List.Forall₂ (fun v a => Argument.elements a = .ok (given v)) inputs args →
          ((∃ index ∈ Shape.indices (arrayShape out),
            op.Undefined (numbersAt operands given index)) →
            (e.over inputs).evaluate specs options args = halt .divisionByZero) ∧
          ((∀ index ∈ Shape.indices (arrayShape out),
            ¬ op.Undefined (numbersAt operands given index)) →
            ∃ r, (e.over inputs).evaluate specs options args = .ok [r] ∧ r.elem = out.elem ∧
            r.shape = arrayShape out ∧
              r.values = .ok ((Shape.indices (arrayShape out)).map fun index => out.elem.ofInt
                (op.exact (numbersAt operands given index))))) := by
  refine ⟨equates.lowers_iff,
    fun broadcasts specs args given options described declares regular elements => ?_⟩
  obtain ⟨typed, fails, succeeds⟩ := equates.exists_outcomes broadcasts declares described regular
    elements options
  have numbers (index : List Nat) :
    (operands.map fun v => Elementwise.elementAt v (given v) index).map Datum.toInt =
    numbersAt operands given index := by
    rw [map_map]
    rfl
  have counted (index : List Nat) :
    (operands.map fun v => Elementwise.elementAt v (given v) index).length = op.arity := by
    rw [length_map, equates.counted]
  have alike (index : List Nat) (member : index ∈ Shape.indices (arrayShape out)) :
    Alike (operands.map fun v => Elementwise.elementAt v (given v) index) := by
    refine alike_of_cast equates.integer fun d listed => ?_
    obtain ⟨v, operand, rfl⟩ := mem_map.mp listed
    exact (typed v operand).2 _ (Shape.pick_mem (typed v operand).1
      (Elementwise.sourceIndex_mem (broadcasts v operand) member))
  have defined (index : List Nat) (member : index ∈ Shape.indices (arrayShape out))
    (defined : ¬ op.Undefined (numbersAt operands given index)) :=
    (alike index member).apply_defined (counted index) (numbers index ▸ defined) equates.integer
  have undefined (index : List Nat) (member : index ∈ Shape.indices (arrayShape out))
    (undefined : op.Undefined (numbersAt operands given index)) :=
    (alike index member).apply_undefined (counted index) (numbers index ▸ undefined)
  constructor
  · rintro ⟨index, member, zero⟩
    refine fails _ (mapM_eq_halt (fun index member => ?_) ⟨index, member,
      undefined index member zero⟩)
    by_cases zero : op.Undefined (numbersAt operands given index)
    · exact .inr (undefined index member zero)
    · obtain ⟨d, applied, -⟩ := defined index member zero
      exact .inl ⟨d, applied⟩
  · intro nonzero
    choose! datum applied exact using fun index member => defined index member
      (nonzero index member)
    obtain ⟨r, evaluated, elem, shape, values⟩ := succeeds datum applied
    refine ⟨r, evaluated, elem, shape,
      values.trans (congrArg Except.ok (map_congr_left fun index member => ?_))⟩
    rw [equates.result, exact index member, numbers]

def samples : Tensor :=
  ⟨.int8, [2], [1], .cpuHeap, #[128, 7]⟩

theorem values_samples : samples.values = .ok [.int (-128), .int 7] := by
  have dense : samples.Dense 2 := ⟨⟨rfl, by decide⟩, rfl, rfl⟩
  refine dense.values_eq_ok.mpr ⟨rfl, fun i d listed => ?_⟩
  rcases i with _ | _ | i <;> cases listed <;> rfl

-- Dividing by -1 wraps at the least number of a type.
theorem evaluate_elementwise_wrapping :
    let x : Var := ⟨0, .traced, [2], .int8⟩
    let y : Var := ⟨1, .traced, [], .int8⟩
    let out : Var := ⟨2, .traced, [2], .int8⟩
    let e : Equation := ⟨"div", [.var x, .var y], [out], {}, false⟩
    let args : List Argument := [.tensor samples, .scalar ⟨.int8, .int (-1)⟩]
    let specs : List ArgSpec := [⟨[2], .int8, some [1], .cpuHeap⟩, ⟨[], .int8, none, .cpuHeap⟩]
    Equates .div .int8 e [x, y] [x, y] out ∧ ∃ r, (e.over [x, y]).evaluate specs (.all true) args =
    .ok [r] ∧ r.elem = .int8 ∧ r.shape = [2] ∧
      r.values = .ok [.int (-128), .int (-7)] := by
  intro x y out e args specs
  have pair : Shape.Fits [2] := ⟨⟨_, rfl⟩, by decide, 2, rfl, by decide⟩
  have single : Shape.Fits [] := ⟨⟨_, rfl⟩, by decide, 1, rfl, by decide⟩
  have equates : Equates .div .int8 e [x, y] [x, y] out := by
    refine ⟨rfl, rfl, rfl, rfl, rfl, by simp [x, y], rfl, rfl, fun _ => Iff.rfl,
      .traced (by decide) (by decide), ?_⟩
    simp only [cons_append, nil_append, forall_mem_cons, not_mem_nil, false_imp_iff, implies_true,
      and_true]
    exact ⟨pair, single, pair⟩
  have broadcasts : ∀ v ∈ [x, y], Shape.Broadcasts v.shape out.shape := by
    simp only [forall_mem_cons, not_mem_nil, false_imp_iff, implies_true, and_true]
    exact ⟨.inr (.cons (.inl rfl) .nil), .inl rfl⟩
  have first : Argument.elements (.tensor samples) = .ok [.int (-128), .int 7] := values_samples
  have second : Argument.elements (.scalar ⟨.int8, .int (-1)⟩) = .ok [.int (-1)] :=
    Argument.elements_scalar rfl rfl
  let given (v : Var) : List Datum := if v.id = 0 then [.int (-128), .int 7] else [.int (-1)]
  obtain ⟨-, runs⟩ := evaluate_elementwise equates
  obtain ⟨r, evaluated, elem, shape, values⟩ :=
    (runs broadcasts specs args given (.all true) rfl (.cons ⟨rfl, rfl⟩ (.cons ⟨rfl, rfl⟩ .nil))
    (by simp [args, Argument.Regular, Tensor.rank, samples]) (.cons first (.cons second .nil))).2
      fun index _ undefined => nomatch undefined.2
  have indices : Shape.indices (arrayShape out) = [[0], [1]] := rfl
  have least : div.exact (numbersAt [x, y] given [0]) = 128 := rfl
  have other : div.exact (numbersAt [x, y] given [1]) = -7 := rfl
  have wrapped : ElemType.int8.ofInt 128 = .int (-128) := rfl
  have kept : ElemType.int8.ofInt (-7) = .int (-7) := rfl
  refine ⟨equates, r, evaluated, elem, shape, values.trans ?_⟩
  rw [indices, map_cons, map_cons, map_nil, least, other]
  exact congrArg₂ (fun a b => Except.ok [a, b]) wrapped kept

-- Without room for the product of the extents an empty result can not be given either.
theorem evaluate_elementwise_without_room :
    let x : Var := ⟨0, .traced, [], .int64⟩
    let y : Var := ⟨1, .traced, [], .int64⟩
    let out : Var := ⟨2, .traced, [2 ^ 33, 2 ^ 33, 0], .int64⟩
    let e : Equation := ⟨"add", [.var x, .var y], [out], {}, false⟩
    let args : List Argument := [.scalar ⟨.int64, .int 1⟩, .scalar ⟨.int64, .int 2⟩]
    let specs : List ArgSpec := List.replicate 2 ⟨[], .int64, none, .cpuHeap⟩
    (∀ v ∈ [x, y], Shape.Broadcasts v.shape out.shape) ∧ Shape.indices (arrayShape out) = [] ∧
      Outcome.Succeeds (lower .builtin (e.over [x, y]) none (.new 0)).1 ∧
      ¬ ((e.over [x, y]).evaluate specs (.all false) args).Succeeds := by
  intro x y out e args specs
  have lowers : Outcome.Succeeds (lower .builtin (e.over [x, y]) none (.new 0)).1 := by
    decide +kernel
  have fails : ¬ ((e.over [x, y]).evaluate specs (.all false) args).Succeeds := by decide +kernel
  have empty : Shape.indices (arrayShape out) = [] := by decide +kernel
  refine ⟨?_, empty, lowers, fails⟩
  simp only [forall_mem_cons, not_mem_nil, false_imp_iff, implies_true, and_true]
  exact ⟨.inl rfl, .inl rfl⟩

end IntegerOp

end TraceFlow
