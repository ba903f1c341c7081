import TraceFlow.Proofs.OutputMaps

set_option autoImplicit false

namespace TraceFlow

open Builder Kernel Lowering List
open Effect.MapBody (bindPoint)

variable {index : List Nat}

namespace Shape

def Broadcasts (source target : List Nat) : Prop :=
  source = [] ∨ List.Forall₂ (fun extent outer => extent = outer ∨ extent = 1) source target

-- The index that is read: 0 along dimensions of extent 1.
def sourceIndex (source index : List Nat) : List Nat :=
  List.zipWith (fun extent i => if extent = 1 then 0 else i) source index

theorem sourceIndex_inside {source target : List Nat}
    (fits : List.Forall₂ (fun extent outer => extent = outer ∨ extent = 1) source target)
    (inside : List.Forall₂ (· < ·) index target) : List.Forall₂ (· < ·)
      (sourceIndex source index) source := by
  induction fits generalizing index with
  | nil => exact .nil
  | @cons extent outer _ _ same _ ih =>
    cases inside with
    | cons below inside =>
      refine .cons ?_ (ih inside)
      dsimp only
      split <;> omega

end Shape

namespace Elementwise

variable {op : Elementwise} {e : Equation} {out : Var}

-- How a list of extents is read along axes with other extents.
def aligned : List Nat → List Nat → List Axis → List Index
  | extent :: extents, outer :: outers, axis :: axes =>
    (if extent = outer then .symbol axis.param else .constant 0) :: aligned extents outers axes
  | _, _, _ => []

section

variable {extents outers : List Nat} {axes : List Axis} (counted : outers.length = axes.length)

include counted

theorem broadcastIndex_eq_ok {source target : List Nat} {parts : List Index}
    (paired : extents.length = outers.length) :
    broadcastIndex source target extents outers axes = .ok parts ↔
      List.Forall₂ (fun extent outer => extent = outer ∨ extent = 1) extents outers ∧
      parts = aligned extents outers axes := by
  induction extents generalizing outers axes parts with
  | nil =>
    obtain rfl := eq_nil_of_length_eq_zero paired.symm
    simp [broadcastIndex, aligned, eq_comm]
  | cons extent extents ih =>
    obtain ⟨outer, outers, rfl⟩ := exists_cons_of_length_eq_add_one paired.symm
    obtain ⟨axis, axes, rfl⟩ := exists_cons_of_length_eq_add_one counted.symm
    have rest {parts : List Index} :=
      @ih outers axes (by simpa using counted) parts (by simpa using paired)
    rw [broadcastIndex, aligned, forall₂_cons]
    by_cases same : extent = outer
    · simp [same, bind_eq_ok, rest, and_assoc, @eq_comm _ parts]
    · rw [if_neg same, if_neg same]
      by_cases one : extent = 1
      · simp [one, bind_eq_ok, rest, and_assoc, @eq_comm _ parts]
      · simp only [same, one, if_false, or_self, false_and, iff_false]
        rintro ⟨⟩

variable (fits : List.Forall₂ (fun extent outer => extent = outer ∨ extent = 1) extents outers)

include fits

theorem aligned_within : List.Forall₂ (Index.Within (axes.map Axis.param))
    (aligned extents outers axes) extents := by
  have wider {params : List String} {param : String} {part : Index} {extent : Nat}
    (within : Index.Within params part extent) :
      Index.Within (param :: params) part extent :=
    within.imp_left fun ⟨used, bound⟩ => ⟨used, fun symbol used => mem_cons_of_mem _
      (bound symbol used)⟩
  induction fits generalizing axes with
  | nil => exact .nil
  | @cons extent outer _ _ here _ ih =>
    obtain ⟨axis, axes, rfl⟩ := exists_cons_of_length_eq_add_one counted.symm
    refine .cons ?_ ((ih (by simpa using counted)).imp fun _ _ => wider)
    split
    next => exact Index.within_symbol mem_cons_self
    next other => exact here.resolve_left other ▸ .inr ⟨0, rfl, Nat.one_pos, by decide⟩

theorem aligned_eval {lookup : String → Option Int}
    (bound : List.Forall₂ (fun (axis : Axis) (x : Nat) => lookup axis.param = some (x : Int)) axes
      index) (inside : List.Forall₂ (· < ·) index outers)
    (small : ∀ outer ∈ outers, outer < indexBound) :
    List.Forall₂ (fun (part : Index) i => part.eval lookup = .ok (some i))
      (aligned extents outers axes) ((Shape.sourceIndex extents index).map Nat.cast) := by
  induction fits generalizing axes index with
  | nil => exact .nil
  | @cons extent outer extents outers here _ ih =>
    cases inside with
    | @cons x _ index _ below inside =>
      cases bound with
      | cons found bound =>
        obtain ⟨few, small⟩ := forall_mem_cons.mp small
        refine .cons ?_ (ih (by simpa using counted) bound inside small)
        dsimp only
        split
        next same =>
          rw [show (if extent = 1 then 0 else x) = x by split <;> omega]
          exact Index.eval_symbol found (below.trans few)
        next other =>
          rw [if_pos (here.resolve_left other)]
          rfl

end

section

variable {v out : Var} {parts : List Index}

theorem succeeds_defaultIndex (rank : v.shape = [] ∨ v.shape.length = out.shape.length) :
    (defaultIndex (axes out.shape) v.shape out.shape).Succeeds ↔
    Shape.Broadcasts v.shape out.shape := by
  rw [defaultIndex, Shape.Broadcasts]
  cases shape : v.shape with
  | nil => exact ⟨fun _ => .inl rfl, fun _ => ⟨_, rfl⟩⟩
  | cons extent extents =>
    rw [shape] at rank
    have counted := rank.resolve_left (by simp)
    have ranked : out.shape ≠ [] := fun empty => by rw [empty] at counted; cases counted
    rw [if_neg (by simp)]
    simp [Outcome.Succeeds, broadcastIndex_eq_ok (length_axes ranked).symm counted]

theorem defaultIndex_eval (rank : v.shape = [] ∨ v.shape.length = out.shape.length)
    (made : defaultIndex (axes out.shape) v.shape out.shape = .ok parts)
    (small : ∀ extent ∈ out.shape, extent < indexBound) :
    List.Forall₂ (Index.Within ((axes out.shape).map Axis.param)) parts (arrayShape v) ∧
      ∀ index ∈ Shape.indices (arrayShape out), ∃ index' ∈ Shape.indices (arrayShape v),
        Shape.place index' (Shape.rowMajor (arrayShape v)) = Shape.place
          (Shape.sourceIndex v.shape index) (Shape.rowMajor v.shape) ∧ List.Forall₂
          (fun (part : Index) i => part.eval
            (bindPoint (axes out.shape) (index.map Nat.cast) {}).get? = .ok (some i))
          parts (index'.map Nat.cast) := by
  rw [defaultIndex] at made
  rw [arrayShape]
  cases shape : v.shape with
  | nil =>
    rw [shape] at made
    cases made
    exact ⟨.cons (.inr ⟨0, rfl, Nat.one_pos, by decide⟩) .nil, fun index _ => ⟨[0], by decide, rfl,
      .cons rfl .nil⟩⟩
  | cons extent extents =>
    rw [shape] at rank made
    have counted := rank.resolve_left (by simp)
    have ranked : out.shape ≠ [] := fun empty => by rw [empty] at counted; cases counted
    rw [if_neg (by simp)] at made ⊢
    have axes := (length_axes ranked).symm
    obtain ⟨fits, rfl⟩ := (broadcastIndex_eq_ok axes counted).mp made
    refine ⟨aligned_within axes fits, fun index member => ?_⟩
    have bound := bound_axes out member {}
    have inside := Shape.mem_indices.mp member
    rw [arrayShape, if_neg (by simpa using ranked)] at inside
    exact ⟨_, Shape.mem_indices.mpr (Shape.sourceIndex_inside fits inside), rfl,
      aligned_eval axes fits bound inside small⟩

end

section

variable {array : Var → String}

theorem zip_arrays (array : Var → String) (atoms : List Atom) :
    (atoms.map (Atom.array? array)).zip atoms = atoms.map fun atom =>
    (atom.array? array, atom) := by
  simpa using @zip_map' _ _ _ (Atom.array? array) id atoms

theorem bindInputs_arrays (connector : Nat → String) (i : Nat) (atoms : List Atom) (t : Template) :
    bindInputs connector i (atoms.map fun atom => (atom.array? array, atom)) t = .ok
      (bindAtoms connector i atoms t) := by
  induction atoms generalizing i t with
  | nil => rfl
  | cons atom atoms ih => cases atom <;> exact ih (i + 1) _

variable {axes : List Axis} {target : List Nat} {connector : Nat → String} {k : Nat}
  {atoms : List Atom} {reads : Dict Access}

theorem succeeds_defaultReadsFrom : (defaultReadsFrom axes target connector k
      (atoms.map fun atom => (atom.array? array, atom))).Succeeds ↔
    ∀ v, .var v ∈ atoms → (defaultIndex axes v.shape target).Succeeds := by
  induction atoms generalizing k with
  | nil => simp [defaultReadsFrom, Outcome.Succeeds]
  | cons atom atoms ih =>
    cases atom with
    | literal s => simpa [defaultReadsFrom, Atom.array?] using @ih (k + 1)
    | var v =>
      simp only [mem_cons, Atom.var.injEq, forall_eq_or_imp, ← @ih (k + 1)]
      constructor
      · rintro ⟨d, made⟩
        obtain ⟨parts, here, made⟩ := bind_eq_ok.mp made
        obtain ⟨others, later, -⟩ := bind_eq_ok.mp made
        exact ⟨⟨parts, here⟩, others, later⟩
      · rintro ⟨⟨parts, here⟩, others, later⟩
        exact ⟨_, bind_eq_ok.mpr ⟨parts, here, bind_eq_ok.mpr ⟨others, later, rfl⟩⟩⟩

theorem get?_reads (apart : ∀ i j, connector i = connector j → i = j)
    (read : defaultReadsFrom axes target connector k
      (atoms.map fun atom => (atom.array? array, atom)) = .ok reads) (c : String) (a : Access) :
    reads.get? c = some a ↔ ∃ j v parts, c = connector (k + j) ∧ atoms[j]? = some (.var v) ∧
    defaultIndex axes v.shape target = .ok parts ∧ a = .element (array v) parts := by
  induction atoms generalizing k reads with
  | nil =>
    cases read
    refine ⟨fun found => ?_, fun ⟨_, _, _, _, listed, _⟩ => ?_⟩
    · cases found
    · cases listed
  | cons atom atoms ih =>
    -- The operands behind the first one count from 1 on.
    have later {others : Dict Access}
      (read : defaultReadsFrom axes target connector (k + 1)
        (atoms.map fun atom => (atom.array? array, atom)) = .ok others) :
        others.get? c = some a ↔ ∃ j v parts, c = connector (k + (j + 1)) ∧
        (atom :: atoms)[j + 1]? = some (.var v) ∧
          defaultIndex axes v.shape target = .ok parts ∧ a = .element (array v) parts := by
      simpa only [Nat.add_assoc, Nat.add_comm 1, getElem?_cons_succ] using ih read
    cases atom with
    | literal s =>
      rw [later read]
      refine ⟨fun ⟨j, rest⟩ => ⟨j + 1, rest⟩, fun ⟨j, v, parts, named, listed, rest⟩ => ?_⟩
      cases j with
      | zero => cases listed
      | succ j => exact ⟨j, v, parts, named, listed, rest⟩
    | var v =>
      obtain ⟨parts, here, read⟩ := bind_eq_ok.mp read
      obtain ⟨others, rest, made⟩ := bind_eq_ok.mp read
      cases made
      rw [Dict.get?_insert]
      split
      next same =>
        subst same
        constructor
        · rintro ⟨⟩
          exact ⟨0, v, parts, rfl, rfl, here, rfl⟩
        · rintro ⟨j, v', parts', named, listed, made, rfl⟩
          obtain rfl : j = 0 := by have := apart _ _ named; omega
          cases listed
          cases here.symm.trans made
          rfl
      next other =>
        rw [later rest]
        refine ⟨fun ⟨j, rest⟩ => ⟨j + 1, rest⟩, fun ⟨j, v', parts', named, rest⟩ => ?_⟩
        cases j with
        | zero => exact absurd named other
        | succ j => exact ⟨j, v', parts', named, rest⟩

theorem defaultReads_eq : op.defaultReads axes (e.inputs.map (Atom.array? array)) e target =
    .ok reads ↔ (∀ v, .var v ∈ e.inputs → v.shape = [] ∨ v.shape.length = target.length) ∧
      defaultReadsFrom axes target op.connector 0
        (e.inputs.map fun atom => (atom.array? array, atom)) = .ok reads := by
  rw [defaultReads, zip_arrays]
  split
  next atom found =>
    refine ⟨fun made => (nomatch made), fun ⟨ranks, _⟩ => ?_⟩
    have member := mem_of_find?_eq_some found
    have refused := find?_some found
    cases atom with
    | literal s => cases refused
    | var v => rcases ranks v member with scalar | ranked <;> simp_all [Atom.shape]
  next none =>
    refine ⟨fun made => ⟨fun v listed => ?_, made⟩, fun both => both.2⟩
    have passes := find?_eq_none.mp none (.var v) listed
    by_cases scalar : v.shape = []
    · exact .inl scalar
    · refine .inr ?_
      simpa [Atom.shape, scalar] using passes

end

theorem succeeds_defaultReads (array : Var → String) :
    (op.defaultReads (axes out.shape) (e.inputs.map (Atom.array? array)) e out.shape).Succeeds ↔
      ∀ v, .var v ∈ e.inputs → Shape.Broadcasts v.shape out.shape := by
  constructor
  · rintro ⟨reads, read⟩ v listed
    obtain ⟨ranks, read⟩ := defaultReads_eq.mp read
    exact (succeeds_defaultIndex (ranks v listed)).mp (succeeds_defaultReadsFrom.mp ⟨reads, read⟩ v
      listed)
  · intro fits
    have ranked (v : Var) (listed : .var v ∈ e.inputs) :
      v.shape = [] ∨ v.shape.length = out.shape.length :=
      (fits v listed).imp_right List.Forall₂.length_eq
    obtain ⟨reads, read⟩ := (@succeeds_defaultReadsFrom array (axes out.shape) out.shape
      op.connector 0 e.inputs).mpr fun v listed =>
      (succeeds_defaultIndex (ranked v listed)).mpr (fits v listed)
    exact ⟨reads, defaultReads_eq.mpr ⟨ranked, read⟩⟩

-- An operation that reads its operands in the default way, by a kernel that is an expression of
-- them.
structure Composed (op : Elementwise) (e : Equation) (t : Template) (tree : Expr) : Prop where
  reads : op.reads? = none
  apart : ∀ i j, op.connector i = op.connector j → i = j
  words : ∀ i, isWord (op.connector i) = true
  written : ∀ s, .literal s ∈ e.inputs → Written s.value
  kernel : ∀ axes array, op.kernel axes (e.inputs.map (Atom.array? array)) e = .ok t
  unbound : t.bindings = {}
  composes : t.Composes True tree
  names : ∀ slot ∈ tree.names, ∃ i < e.inputs.length, slot = "in" ++ i.repr

-- The element of an operand that goes with an index of the output.
def elementAt (v : Var) (values : List Datum) (index : List Nat) : Datum :=
  Shape.pick v.shape values (Shape.sourceIndex v.shape index)

-- What an operand is in the kernel.
def operandAt (given : Var → List Datum) (index : List Nat) : Atom → Datum
  | .var v => elementAt v (given v) index
  | .literal s => asRead s.value

theorem sourceIndex_mem {v : Var} (broadcasts : Shape.Broadcasts v.shape out.shape)
    (member : index ∈ Shape.indices (arrayShape out)) :
    Shape.sourceIndex v.shape index ∈ Shape.indices v.shape := by
  have inside := Shape.mem_indices.mp member
  rw [Shape.mem_indices]
  rcases broadcasts with scalar | fits
  · rw [scalar]
    exact .nil
  · rw [arrayShape] at inside
    split at inside
    next scalar =>
      rw [List.isEmpty_iff.mp scalar, forall₂_nil_right_iff] at fits
      rw [fits]
      exact .nil
    next => exact Shape.sourceIndex_inside fits inside

namespace Composed

variable {op : Elementwise} {e : Equation} {t : Template} {tree : Expr}
  (composed : op.Composed e t tree)

include composed

theorem exists_leaf (slot : String) : ∃ x, ∀ (i : Nat) atom, e.inputs[i]? = some atom →
    slot = "in" ++ i.repr → Denotes (operandText op.connector i atom).toList x ∧
    ∀ given index scope, (∀ v, atom = .var v →
      scope.value? (op.connector i) = some (elementAt v (given v) index)) →
      x.eval scope = .ok (operandAt given index atom) := by
  by_cases known : ∃ (i : Nat) (atom : Atom), e.inputs[i]? = some atom ∧ slot = "in" ++ i.repr
  · obtain ⟨i, atom, listed, rfl⟩ := known
    have only {holds : Nat → Atom → Prop} (here : holds i atom) (j : Nat) (other : Atom)
      (listed' : e.inputs[j]? = some other)
        (same : "in" ++ i.repr = "in" ++ j.repr) : holds j other := by
      cases slot_inj.mp same
      cases listed.symm.trans listed'
      exact here
    cases atom with
    | var v =>
      refine ⟨.name (op.connector i), only ⟨denotes_name (isVariable_of_isWord (composed.words i)),
        fun given index scope bound => ?_⟩⟩
      rw [Expr.eval, bound v rfl]
      rfl
    | literal s =>
      obtain ⟨x, denotes, value⟩ := denotes_datum (composed.written s (mem_of_getElem? listed))
      exact ⟨x, only ⟨denotes, fun _ _ scope _ => value scope⟩⟩
  · exact ⟨.const (.int 0), fun i atom listed same => (known ⟨i, atom, listed, same⟩).elim⟩

theorem exists_code : ∃ code leaf, (bindAtoms op.connector 0 e.inputs t).render = .ok code ∧
    Assignment.parse ("__out = " ++ code) = .ok ⟨"__out", tree.fill leaf⟩ ∧
    ∀ given index scope, (∀ j v, e.inputs[j]? = some (.var v) →
      scope.value? (op.connector j) = some (elementAt v (given v) index)) →
      ∀ (i : Nat) atom, e.inputs[i]? = some atom → (leaf ("in" ++ i.repr)).eval scope = .ok
        (operandAt given index atom) := by
  obtain ⟨pieces, cut⟩ := composed.composes.exists_pieces
  choose leaf holds using composed.exists_leaf
  have bound {i : Nat} (inside : i < e.inputs.length) :
      (bindAtoms op.connector 0 e.inputs t).bindings.get? ("in" ++ i.repr) =
      some (operandText op.connector i e.inputs[i]) := by
    have bound := get?_bindAtoms op.connector 0 i e.inputs t
    rw [Nat.zero_add, getElem?_eq_getElem inside] at bound
    exact bound
  obtain ⟨code, rendered⟩ : ∃ code, (bindAtoms op.connector 0 e.inputs t).render = .ok code := by
    refine ⟨_, (Template.render_eq_ok (by rw [text_bindAtoms, cut])).mpr ⟨fun name member => ?_,
      rfl⟩⟩
    have named := (composed.composes.named trivial cut member).resolve_right fun bound => bound
      (by rw [composed.unbound]; rfl)
    obtain ⟨i, inside, same⟩ := composed.names _ named
    rw [same, bound inside]
    rfl
  have composition := (composed.composes.of_render (text_bindAtoms ..)
    (fun slot value found => by rw [composed.unbound] at found; cases found) rendered).1
  refine ⟨code, leaf, rendered, denotes_iff.mp (composition.denotes trivial leaf fun slot member =>
    ?_), fun given index scope here i atom listed =>
    (holds _ i atom listed rfl).2 given index scope fun v same => here i v (same ▸ listed)⟩
  obtain ⟨i, inside, rfl⟩ := composed.names slot member
  rw [Template.texts, bound inside]
  exact (holds _ i _ (getElem?_eq_getElem inside) rfl).1

theorem node_eq {code : String} (rendered : (bindAtoms op.connector 0 e.inputs t).render = .ok code)
    (array : Var → String) (output : String) (out : Var) :
    op.node (e.inputs.map (Atom.array? array)) output out e = (do
      let reads ← op.defaultReads (axes out.shape) (e.inputs.map (Atom.array? array)) e out.shape
      return mapNode (op.primitive ++ "_" ++ output) code output out reads {}) := by
  unfold node
  simp only [composed.reads, composed.kernel, zip_arrays, bindInputs_arrays, rendered, ok_bind]
  rfl

theorem kernelAt_index {array : Var → String} {reads : Dict Access}
    (read : op.defaultReads (axes out.shape) (e.inputs.map (Atom.array? array)) e out.shape =
      .ok reads) (small : ∀ extent ∈ out.shape, extent < indexBound)
    {memory : Memory} {given : Var → List Datum}
    (holds : ∀ v, .var v ∈ e.inputs → HoldsOperand memory (array v) v (given v))
    (member : index ∈ Shape.indices (arrayShape out)) (label code output : String) (value : Expr) :
    ∃ scope : Scope, (∀ j v, e.inputs[j]? = some (.var v) →
        scope.value? (op.connector j) = some (elementAt v (given v) index)) ∧
      (mapBody label code output out reads {} value).kernelAt memory
        (bindPoint (axes out.shape) (index.map Nat.cast) {}) = value.eval scope := by
  obtain ⟨ranks, read⟩ := defaultReads_eq.mp read
  have known (c : String) (a : Access) := get?_reads composed.apart read c a
  simp only [Nat.zero_add] at known
  have sorted : reads.Sorted := (get?_defaultReadsFrom (zip_arrays array e.inputs ▸ read)).1
  -- A variable is read at its element.
  have element {v : Var} {parts : List Index} (listed : .var v ∈ e.inputs)
    (made : defaultIndex (axes out.shape) v.shape out.shape = .ok parts) :
      (Access.element (array v) parts).readElement memory
        (bindPoint (axes out.shape) (index.map Nat.cast) {}).get? =
        .ok (elementAt v (given v) index) := by
    obtain ⟨count, t, found, dense, -, shape, values⟩ := holds v listed
    obtain ⟨index', inside, place, evaluated⟩ :=
      (defaultIndex_eval (ranks v listed) made small).2 index member
    have got := @Access.readElement_index (given v) count memory _ (.element (array v) parts) t
      index' found dense values (shape ▸ inside)
      (Access.elementIndex_eq evaluated)
    rw [got, elementAt, Shape.pick, Shape.pick, shape, place]
  have entry {c : String} {access : Access} :
    (c, access) ∈ (mapBody label code output out reads {} value).elements ↔
    reads.get? c = some access := by
    refine mem_filter.trans ((and_iff_left_of_imp fun found => ?_).trans sorted.mem_entries)
    obtain ⟨_, _, _, -, -, -, rfl⟩ := (known c access).mp (sorted.mem_entries.mp found)
    simp [window?_element]
  obtain ⟨scalars, bound, -, evaluated⟩ :=
    @Effect.MapBody.kernelAt_scope (bindPoint (axes out.shape) (index.map Nat.cast) {}) memory
    (mapBody label code output out reads {} value) sorted (by
      rintro ⟨c, access⟩ member
      obtain ⟨j, v, parts, -, listed, made, rfl⟩ := (known c access).mp (entry.mp member)
      exact ⟨_, element (mem_of_getElem? listed) made⟩)
  refine ⟨_, fun j v listed => ?_, evaluated⟩
  obtain ⟨parts, made⟩ := succeeds_defaultReadsFrom.mp ⟨reads, read⟩ v (mem_of_getElem? listed)
  have here := bound _ _ _ (entry.mpr ((known _ _).mpr ⟨j, v, parts, rfl, listed, made, rfl⟩))
    (element (mem_of_getElem? listed) made)
  simp only [Effect.MapBody.scope, here, Option.some_or]

theorem evaluate (listed : op ∈ operations) (same : e.primitive = op.primitive) {inputs : List Var}
    (single : e.Single inputs out) :
    (Outcome.Succeeds (lower .builtin (e.over inputs) none (.new 0)).1 ↔ ∀ v, .var v ∈ e.inputs →
      Shape.Broadcasts v.shape out.shape) ∧
      ((∀ v, .var v ∈ e.inputs → Shape.Broadcasts v.shape out.shape) → ∀ specs args given options,
        Called inputs specs args given →
        (∀ v ∈ inputs, v.Elements (given v)) ∧ ∀ outcome : List Nat → Outcome Datum,
          (∀ index ∈ Shape.indices (arrayShape out), ∀ (leaf : String → Expr) scope,
            (∀ (i : Nat) atom, e.inputs[i]? = some atom →
              (leaf ("in" ++ i.repr)).eval scope = .ok (operandAt given index atom)) →
            (tree.fill leaf).eval scope = outcome index) → e.Ends inputs out specs options args
            (((Shape.indices (arrayShape out)).mapM outcome).map
              (List.map (·.cast out.elem)))) := by
  obtain ⟨code, leaf, rendered, parsed, values⟩ := composed.exists_code
  obtain ⟨array, output, arrays, arranged, lowers, run⟩ :=
    single.evaluate_map (same ▸ nodesOf?_operation listed)
  have node := composed.node_eq rendered array output out
  have fits := single.fits out (mem_append_right _ mem_cons_self)
  refine ⟨lowers.trans ?_, fun broadcasts specs args given options called => ?_⟩
  · rw [← succeeds_defaultReads array]
    constructor
    · rintro ⟨emitted, noded⟩
      obtain ⟨_, v, _, m, named, outputs, made, -⟩ := nodes_eq_ok.mp noded
      cases named
      cases outputs.symm.trans single.outputs
      obtain ⟨reads, read, -⟩ := bind_eq_ok.mp (node.symm.trans made)
      exact ⟨reads, read⟩
    · rintro ⟨reads, read⟩
      rw [read] at node
      exact ⟨_, nodes_eq_ok.mpr ⟨output, out, [], _, rfl, single.outputs, node, rfl⟩⟩
  · obtain ⟨reads, read⟩ := (succeeds_defaultReads array).mpr broadcasts
    rw [read] at node
    obtain ⟨ranks, read'⟩ := defaultReads_eq.mp read
    obtain ⟨elements, ends⟩ :=
      run _ code reads {} _ (nodes_eq_ok.mpr ⟨output, out, [], _, rfl, single.outputs, node, rfl⟩)
        parsed (fun ⟨c, access⟩ member => by
      have sorted : reads.Sorted := (get?_defaultReadsFrom (zip_arrays array e.inputs ▸ read')).1
      obtain ⟨_, v, parts, -, listed, made, rfl⟩ :=
        (get?_reads composed.apart read' c access).mp (sorted.mem_entries.mp member)
      have listed := mem_of_getElem? listed
      obtain ⟨d, present, shape⟩ := (arranged.operand v (single.closed v listed)).2
      have within := (defaultIndex_eval (ranks v listed) made fits.extents).1
      exact .element present (shape ▸ (append_nil _).symm ▸ within)) (fun entry member => by
        cases member) specs args given options called
    refine ⟨elements, fun outcome evaluates => ?_⟩
    have ends := ends {} (outcome ∘ Shape.padded) fun memory holds => ⟨rfl, fun index member => by
      have member := Shape.padded_mem member
      obtain ⟨scope, bound, evaluated⟩ :=
        composed.kernelAt_index read fits.extents (fun v listed => holds v (single.closed v listed))
          member _ code output _
      exact evaluated.trans (evaluates _ member leaf scope (values given _ scope bound))⟩
    rwa [← mapM_map, ← Shape.indices_arrayShape] at ends

end Composed

end Elementwise

end TraceFlow
