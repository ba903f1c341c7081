import TraceFlow.Lowering.Basic
import TraceFlow.Proofs.Outcome

set_option autoImplicit false

namespace TraceFlow

open List

variable (σ : Nat → Nat)

def Var.renamed (v : Var) : Var :=
  { v with id := σ v.id }

def Atom.renamed : Atom → Atom
  | .var v => .var (v.renamed σ)
  | .literal s => .literal s

mutual

def Param.renamed : Param → Param
  | .lambda f => .lambda (Lambda.renamed f)
  | .lambdas fs => .lambdas (Lambda.renamedAll fs)
  | other => other

def Lambda.renamed : Lambda → Lambda
  | ⟨inputs, constVars, consts, effects, equations, outputs⟩ =>
    ⟨inputs.map (Var.renamed σ), constVars.map (Var.renamed σ), consts, effects,
      Lambda.renamedEquations equations, outputs.map (Atom.renamed σ)⟩

def Equation.renamed : Equation → Equation
  | ⟨primitive, inputs, outputs, ⟨params⟩, effectful⟩ =>
    ⟨primitive, inputs.map (Atom.renamed σ), outputs.map (Var.renamed σ),
      ⟨Lambda.renamedParams params⟩, effectful⟩

def Lambda.renamedEquations : List Equation → List Equation
  | [] => []
  | e :: rest => Equation.renamed e :: Lambda.renamedEquations rest

def Lambda.renamedParams : List (String × Param) → List (String × Param)
  | [] => []
  | (name, p) :: rest => (name, Param.renamed p) :: Lambda.renamedParams rest

def Lambda.renamedAll : List Lambda → List Lambda
  | [] => []
  | f :: rest => Lambda.renamed f :: Lambda.renamedAll rest

end

namespace Lambda

theorem renamedEquations_eq (equations : List Equation) :
    renamedEquations σ equations = equations.map (Equation.renamed σ) := by
  induction equations with
  | nil => rfl
  | cons e rest ih => rw [renamedEquations, ih, map_cons]

theorem renamedAll_eq (fs : List Lambda) : renamedAll σ fs = fs.map (renamed σ) := by
  induction fs with
  | nil => rfl
  | cons f rest ih => rw [renamedAll, ih, map_cons]

theorem renamedParams_eq (params : List (String × Param)) :
    renamedParams σ params = params.map fun entry => (entry.1, entry.2.renamed σ) := by
  induction params with
  | nil => rfl
  | cons entry rest ih => rw [renamedParams, ih, map_cons]

@[simp] theorem renamed_inputs (f : Lambda) : (f.renamed σ).inputs = f.inputs.map
    (Var.renamed σ) := by
  cases f; simp only [renamed]

@[simp] theorem renamed_constVars (f : Lambda) : (f.renamed σ).constVars = f.constVars.map
    (Var.renamed σ) := by
  cases f; simp only [renamed]

@[simp] theorem renamed_consts (f : Lambda) : (f.renamed σ).consts = f.consts := by
  cases f; simp only [renamed]

@[simp] theorem renamed_effects (f : Lambda) : (f.renamed σ).effects = f.effects := by
  cases f; simp only [renamed]

@[simp] theorem renamed_equations (f : Lambda) : (f.renamed σ).equations = f.equations.map
    (Equation.renamed σ) := by
  cases f; simp only [renamed, renamedEquations_eq]

@[simp] theorem renamed_outputs (f : Lambda) : (f.renamed σ).outputs = f.outputs.map
    (Atom.renamed σ) := by
  cases f; simp only [renamed]

mutual

theorem depth_renamed : ∀ f : Lambda, (f.renamed σ).depth = f.depth
  | ⟨_, _, _, _, equations, _⟩ => by
    simp only [renamed, depth]
    exact equationsDepth_renamed equations

theorem equationsDepth_renamed : ∀ equations : List Equation, equationsDepth
    (renamedEquations σ equations) = equationsDepth equations
  | [] => rfl
  | ⟨_, _, _, ⟨params⟩, _⟩ :: rest => by
    simp only [renamedEquations, Equation.renamed, equationsDepth]
    rw [paramsDepth_renamed params, equationsDepth_renamed rest]

theorem paramsDepth_renamed : ∀ params : List (String × Param), paramsDepth
    (renamedParams σ params) = paramsDepth params
  | [] => rfl
  | (_, .lambda f) :: rest => by
    simp only [renamedParams, Param.renamed, paramsDepth]
    rw [depth_renamed f, paramsDepth_renamed rest]
  | (_, .lambdas fs) :: rest => by
    simp only [renamedParams, Param.renamed, paramsDepth]
    rw [lambdasDepth_renamed fs, paramsDepth_renamed rest]
  | (_, .none) :: rest | (_, .bool _) :: rest | (_, .int _) :: rest | (_, .float _) ::
    rest | (_, .str _) :: rest
  | (_, .ints _) :: rest | (_, .optInts _) :: rest | (_, .elem _) :: rest => by
    simp only [renamedParams, Param.renamed, paramsDepth]
    exact paramsDepth_renamed rest

theorem lambdasDepth_renamed : ∀ fs : List Lambda, lambdasDepth (renamedAll σ fs) = lambdasDepth fs
  | [] => rfl
  | f :: rest => by
    simp only [renamedAll, lambdasDepth]
    rw [depth_renamed f, lambdasDepth_renamed rest]

end

end Lambda

namespace Equation

@[simp] theorem renamed_primitive (e : Equation) : (e.renamed σ).primitive = e.primitive := by
  rcases e with ⟨_, _, _, ⟨_⟩, _⟩; simp only [renamed]

@[simp] theorem renamed_inputs (e : Equation) : (e.renamed σ).inputs = e.inputs.map
    (Atom.renamed σ) := by
  rcases e with ⟨_, _, _, ⟨_⟩, _⟩; simp only [renamed]

@[simp] theorem renamed_outputs (e : Equation) : (e.renamed σ).outputs = e.outputs.map
    (Var.renamed σ) := by
  rcases e with ⟨_, _, _, ⟨_⟩, _⟩; simp only [renamed]

@[simp] theorem renamed_effectful (e : Equation) : (e.renamed σ).effectful = e.effectful := by
  rcases e with ⟨_, _, _, ⟨_⟩, _⟩; simp only [renamed]

@[simp] theorem renamed_params (e : Equation) : (e.renamed σ).params = e.params.mapValues
    (Param.renamed σ) := by
  rcases e with ⟨_, _, _, ⟨_⟩, _⟩; simp only [renamed, Dict.mapValues, Lambda.renamedParams_eq]

end Equation

@[simp] theorem Atom.shape_renamed (atom : Atom) : (atom.renamed σ).shape = atom.shape := by
  cases atom <;> rfl

@[simp] theorem Atom.elem_renamed (atom : Atom) : (atom.renamed σ).elem = atom.elem := by
  cases atom <;> rfl

@[simp] theorem Var.isDropped_renamed (v : Var) : (v.renamed σ).isDropped = v.isDropped := rfl

@[simp] theorem Param.text_renamed (p : Param) : (p.renamed σ).text = p.text := by
  cases p <;> simp only [renamed, text, Lambda.renamedAll_eq, length_map]

theorem Dict.get?_mapValues {α β : Type} (f : α → β) (d : Dict α) (key : String) :
    (d.mapValues f).get? key = (d.get? key).map f := by
  obtain ⟨entries⟩ := d
  show lookup key (entries.map _) = (lookup key entries).map f
  induction entries with
  | nil => rfl
  | cons entry rest ih => by_cases same : entry.1 = key <;> simp [lookup, same, ih]

-- Parameters read the same, but for the functions among them.
namespace Params

variable (ps : Params) (name : String)

@[simp] theorem isNone_renamed : isNone (ps.mapValues (Param.renamed σ)) name = isNone ps name := by
  simp only [isNone, Dict.get?_mapValues]
  cases ps.get? name with
  | none => rfl
  | some p => cases p <;> simp only [Option.map_some, Param.renamed]

theorem require_renamed : require (ps.mapValues (Param.renamed σ)) name = (require ps name).map
    (Param.renamed σ) := by
  simp only [require, Dict.get?_mapValues]
  cases ps.get? name <;> rfl

theorem reading_renamed {α : Type} (read : Param → Outcome α)
    (blind : ∀ p, read (p.renamed σ) = read p) :
    (require (ps.mapValues (Param.renamed σ)) name >>= read) = (require ps name >>= read) := by
  rw [require_renamed]
  cases require ps name with
  | error failure => rfl
  | ok p => exact blind p

@[simp] theorem int_renamed : int (ps.mapValues (Param.renamed σ)) name = int ps name :=
  reading_renamed σ ps name _ fun p => by
    cases p <;> simp only [Param.renamed, mismatch, Param.text, Lambda.renamedAll_eq, length_map]

@[simp] theorem str_renamed : str (ps.mapValues (Param.renamed σ)) name = str ps name :=
  reading_renamed σ ps name _ fun p => by
    cases p <;> simp only [Param.renamed, mismatch, Param.text, Lambda.renamedAll_eq, length_map]

@[simp] theorem ints_renamed : ints (ps.mapValues (Param.renamed σ)) name = ints ps name :=
  reading_renamed σ ps name _ fun p => by
    cases p <;> simp only [Param.renamed, mismatch, Param.text, Lambda.renamedAll_eq, length_map]

@[simp] theorem size_renamed : size (ps.mapValues (Param.renamed σ)) name = size ps name := by
  simp only [size, int_renamed]

@[simp] theorem sizes_renamed : sizes (ps.mapValues (Param.renamed σ)) name = sizes ps name := by
  simp only [sizes, ints_renamed]

theorem lambda_renamed : lambda (ps.mapValues (Param.renamed σ)) name = (lambda ps name).map
    (Lambda.renamed σ) := by
  simp only [lambda, require_renamed]
  cases require ps name with
  | error failure => rfl
  | ok p =>
    cases p <;> simp only [Except.map, ok_bind, Param.renamed, mismatch, Param.text,
      Lambda.renamedAll_eq, length_map] <;> rfl

theorem lambdas_renamed : lambdas (ps.mapValues (Param.renamed σ)) name = (lambdas ps name).map
    (List.map (Lambda.renamed σ)) := by
  simp only [lambdas, require_renamed]
  cases require ps name with
  | error failure => rfl
  | ok p =>
    cases p <;> simp only [Except.map, ok_bind, Param.renamed, mismatch, Param.text,
      Lambda.renamedAll_eq] <;> rfl

@[simp] theorem contains_renamed :
    (ps.mapValues (Param.renamed σ)).contains name = ps.contains name := by
  simp only [Dict.contains, Dict.get?_mapValues, Option.isSome_map]

end Params

-- A rule that does the same for an equation under any variable numbers.
def Apply.Blind (apply : Apply) : Prop :=
  ∀ σ names outputs e state, apply names outputs (e.renamed σ) state = apply names outputs e state

theorem firstOutput_renamed (outputs : List String) (e : Equation) :
    firstOutput outputs (e.renamed σ) =
    (do let (name, v) ← firstOutput outputs e; return (name, v.renamed σ)) := by
  unfold firstOutput
  rw [Equation.renamed_outputs]
  rcases outputs with _ | ⟨name, names⟩
  · rfl
  · cases e.outputs <;> rfl

namespace Elementwise

variable {op : Elementwise}

-- Neither the kernel nor the places it reads depend on variable numbers.
structure Blind (op : Elementwise) : Prop where
  kernel (axes : List Axis) (names : List (Option String)) (e : Equation) :
    op.kernel axes names (e.renamed σ) = op.kernel axes names e
  reads {reads : List Axis → List (Option String) → Equation → Outcome (Dict Access)}
    (given : op.reads? = some reads) (axes : List Axis)
    (names : List (Option String)) (e : Equation) :
    reads axes names (e.renamed σ) = reads axes names e

theorem defaultReadsFrom_renamed (axes : List Axis) (target : List Nat) (connector : Nat → String)
    (i : Nat) (names : List (Option String)) (atoms : List Atom) :
    defaultReadsFrom axes target connector i
      (names.zip (atoms.map (Atom.renamed σ))) = defaultReadsFrom axes target connector i
        (names.zip atoms) := by
  induction names generalizing i atoms with
  | nil => rfl
  | cons name? names ih =>
    rcases atoms with _ | ⟨atom, atoms⟩
    · rfl
    · cases name? <;> simp only [map_cons, zip_cons_cons, defaultReadsFrom, Atom.shape_renamed, ih]

theorem bindInputs_renamed (connector : Nat → String) (i : Nat) (names : List (Option String))
    (atoms : List Atom) (template : Template) :
    bindInputs connector i (names.zip (atoms.map (Atom.renamed σ))) template =
    bindInputs connector i (names.zip atoms) template := by
  induction names generalizing i atoms template with
  | nil => rfl
  | cons name? names ih =>
    rcases atoms with _ | ⟨atom, atoms⟩
    · rfl
    · cases name? <;> cases atom <;> simp only [map_cons, zip_cons_cons, bindInputs, Atom.renamed,
        ih]

theorem defaultReads_renamed (op : Elementwise) (axes : List Axis) (names : List (Option String))
    (e : Equation) (target : List Nat) :
    op.defaultReads axes names (e.renamed σ) target = op.defaultReads axes names e target := by
  have misfit : (e.inputs.map (Atom.renamed σ)).find? (fun atom => !atom.shape.isEmpty &&
    atom.shape.length != target.length) =
      (e.inputs.find? fun atom => !atom.shape.isEmpty && atom.shape.length != target.length).map
        (Atom.renamed σ) := by
    rw [find?_map]
    simp only [Function.comp_def, Atom.shape_renamed]
  unfold defaultReads
  rw [Equation.renamed_inputs, misfit, defaultReadsFrom_renamed]
  cases e.inputs.find? fun atom => !atom.shape.isEmpty && atom.shape.length != target.length with
  | none => rfl
  | some atom => simp only [Option.map_some, Atom.shape_renamed]

theorem node_renamed (blind : op.Blind σ) (names : List (Option String)) (output : String) (v : Var)
    (e : Equation) :
    op.node names output (v.renamed σ) (e.renamed σ) = op.node names output v e := by
  have shape : (v.renamed σ).shape = v.shape := rfl
  unfold node
  simp only [shape, blind.kernel, Equation.renamed_inputs, bindInputs_renamed, defaultReads_renamed]
  cases given : op.reads? with
  | none => rfl
  | some reads => simp only [blind.reads given]

theorem apply_blind (blind : ∀ σ, op.Blind σ) : Apply.Blind op.apply := by
  intro σ names outputs e state
  unfold apply
  rw [Equation.renamed_outputs]
  rcases outputs with _ | ⟨output, _ | ⟨second, others⟩⟩
  · rfl
  · rcases e.outputs with _ | ⟨v, vs⟩
    · rfl
    · simp only [map_cons, node_renamed σ (blind σ)]
  · rfl

theorem Blind.of_kernel (plain : op.reads? = none)
    (kernel : ∀ axes names e, op.kernel axes names (e.renamed σ) = op.kernel axes names e) :
    op.Blind σ :=
  ⟨kernel, fun given => by rw [plain] at given; cases given⟩

end Elementwise

namespace Arithmetic

theorem paramText_renamed (params : Params) (name : String) :
    paramText (params.mapValues (Param.renamed σ)) name = paramText params name := by
  simp only [paramText, Dict.get?_mapValues, Params.int_renamed]
  cases params.get? name with
  | none => rfl
  | some p => cases p <;> simp only [Option.map_some, Param.renamed]

theorem bindParams_renamed (params : Params) (slots : List String) (template : Template) :
    bindParams (params.mapValues (Param.renamed σ)) slots template = bindParams params slots
      template := by
  induction slots generalizing template with
  | nil => rfl
  | cons slot rest ih => simp only [bindParams, paramText_renamed, ih]

theorem operation_blind (primitive text : String) : (operation primitive text).Blind σ :=
  .of_kernel σ rfl fun axes names e => by
    simp only [operation, Equation.renamed_params, bindParams_renamed]

theorem logical_blind (primitive bitwise truth : String) :
    (logical primitive bitwise truth).Blind σ :=
  .of_kernel σ rfl fun axes names e => by
    simp only [logical, Equation.renamed_inputs, all_map, Function.comp_def, Atom.elem_renamed]

end Arithmetic

namespace Movement

theorem firstShape_renamed (e : Equation) : firstShape (e.renamed σ) = firstShape e := by
  simp only [firstShape, Equation.renamed_inputs]
  cases e.inputs <;> simp only [map_nil, map_cons, Atom.shape_renamed]

theorem convert_blind : convert.Blind σ := by
  refine .of_kernel σ rfl fun axes names e => ?_
  simp only [convert, Equation.renamed_inputs, Equation.renamed_outputs]
  rcases names with _ | ⟨_ | name, names⟩
  · rfl
  · rfl
  · rcases e.inputs with _ | ⟨input, inputs⟩
    · rfl
    · rcases e.outputs with _ | ⟨output, outputs⟩
      · rfl
      · simp only [map_cons, Atom.elem_renamed, Var.renamed]

theorem devicePut_blind : devicePut.Blind σ := by
  refine .of_kernel σ rfl fun axes names e => ?_
  simp only [devicePut, Equation.renamed_params, Params.isNone_renamed, Dict.get?_mapValues,
    Option.map_map, Function.comp_def, Param.text_renamed]

theorem iota_blind : iota.Blind σ where
  kernel axes names e := by simp only [iota, Equation.renamed_params, Params.size_renamed]
  reads given axes names e := by cases given; rfl

theorem broadcast_blind : broadcast.Blind σ where
  kernel axes names e := rfl
  reads given axes names e := by
    cases given; simp only [Equation.renamed_params, Params.sizes_renamed, firstShape_renamed]

theorem slice_blind : slice.Blind σ where
  kernel axes names e := rfl
  reads given axes names e := by
    cases given; simp only [Equation.renamed_params, Params.isNone_renamed, Params.ints_renamed,
      firstShape_renamed]

theorem squeeze_blind : squeeze.Blind σ where
  kernel axes names e := rfl
  reads given axes names e := by
    cases given; simp only [Equation.renamed_params, Params.sizes_renamed, firstShape_renamed]

theorem reshape_blind : Apply.Blind reshape := by
  intro σ names outputs e state
  unfold reshape
  simp only [Equation.renamed_params, Params.isNone_renamed, firstOutput_renamed, bind_assoc,
    pure_bind]

theorem concatenateParts_renamed (output : String) (dim state : Nat) (offset : Int)
    (names : List String) (atoms : List Atom) : concatenateParts output dim state offset
      (names.zip (atoms.map (Atom.renamed σ))) = concatenateParts output dim state offset
        (names.zip atoms) := by
  induction names generalizing offset atoms with
  | nil => rfl
  | cons name names ih =>
    rcases atoms with _ | ⟨atom, atoms⟩
    · rfl
    · simp only [map_cons, zip_cons_cons, concatenateParts, Atom.shape_renamed, ih]

theorem concatenate_blind : Apply.Blind concatenate := by
  intro σ names outputs e state
  unfold concatenate
  simp only [Equation.renamed_params, Equation.renamed_inputs, Params.size_renamed,
    firstOutput_renamed, concatenateParts_renamed, bind_assoc, pure_bind,
    Var.renamed]

theorem windowIndex_renamed (output : String) (axes : List Axis) (dim : Nat)
    (starts : List (Option String)) (atoms : List Atom) :
    windowIndex output axes dim (starts.zip (atoms.map (Atom.renamed σ))) = windowIndex output axes
      dim (starts.zip atoms) := by
  induction starts generalizing dim atoms with
  | nil => rfl
  | cons start? starts ih =>
    rcases atoms with _ | ⟨atom, atoms⟩
    · rfl
    · cases start? <;> cases atom <;> simp only [map_cons, zip_cons_cons, windowIndex, Atom.renamed,
        ih]

theorem dynamicSlice_blind : Apply.Blind dynamicSlice := by
  intro σ names outputs e state
  unfold dynamicSlice
  rw [Equation.renamed_inputs]
  rcases names with _ | ⟨_ | source, starts⟩
  · rfl
  · rfl
  · rcases e.inputs with _ | ⟨operand, atoms⟩
    · rfl
    · simp only [map_cons, Atom.shape_renamed, firstOutput_renamed, windowIndex_renamed, bind_assoc,
        pure_bind, Var.renamed]

end Movement

theorem Gather.apply_blind : Apply.Blind Gather.apply := by
  intro σ names outputs e state
  unfold Gather.apply
  have plan : Plan.ofParams (e.params.mapValues (Param.renamed σ)) = Plan.ofParams e.params := by
    simp only [Plan.ofParams, Params.sizes_renamed, Params.str_renamed]
  simp only [Equation.renamed_inputs, Equation.renamed_params, plan, firstOutput_renamed,
    bind_assoc, pure_bind]
  rcases names with _ | ⟨_ | source, _ | ⟨_ | index, _ | ⟨name?, names⟩⟩⟩ <;> try rfl
  rcases e.inputs with _ | ⟨first, _ | ⟨second, _ | ⟨third, others⟩⟩⟩ <;> try rfl
  simp only [map_cons, map_nil, Atom.shape_renamed, Var.renamed]

end TraceFlow
