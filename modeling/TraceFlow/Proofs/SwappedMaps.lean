import TraceFlow.Proofs.Buffers
import TraceFlow.Proofs.Nodes
import TraceFlow.Proofs.OperandBinding

set_option autoImplicit false

namespace TraceFlow

open Kernel List

variable {elem : ElemType} {scalars : Dict Datum} {access : Access} {array output : String}
  {before memory : Memory}

structure Dict.Drops {α : Type} (key : String) (value : α) (d d' : Dict α) : Prop where
  sorted : d.Sorted
  sorted' : d'.Sorted
  here : d.get? key = some value
  gone : d'.get? key = none
  others : ∀ other, other ≠ key → d'.get? other = d.get? other

namespace Effect.MapBody

variable {memory : Memory} {symbols : Symbols}

variable {entries : List (String × Access)}

theorem succeeds_readScalars : (readScalars memory symbols entries scalars).Succeeds ↔
    ∀ entry ∈ entries, (entry.2.readElement memory symbols.get?).Succeeds := by
  induction entries generalizing scalars with
  | nil => simp [readScalars]
  | cons entry rest ih =>
    obtain ⟨connector, access⟩ := entry
    rw [readScalars, forall_mem_cons]
    dsimp only
    cases access.readElement memory symbols.get? with
    | error failure => simp
    | ok value => simpa using ih

theorem get?_readScalars_from (distinct : (entries.map Prod.fst).Nodup) {found : Dict Datum}
    (read : readScalars memory symbols entries scalars = .ok found)
    {n : String} {d : Datum} : found.get? n = some d ↔
      (∃ access, (n, access) ∈ entries ∧ access.readElement memory symbols.get? = .ok d) ∨
      n ∉ entries.map Prod.fst ∧ scalars.get? n = some d := by
  induction entries generalizing scalars with
  | nil =>
    cases read
    simp
  | cons entry rest ih =>
    obtain ⟨connector, access⟩ := entry
    obtain ⟨value, first, read⟩ := bind_eq_ok.mp read
    rw [map_cons, nodup_cons] at distinct
    rw [ih distinct.2 read, Dict.get?_insert]
    by_cases same : n = connector
    · subst same
      have none (other : Access) : (n, other) ∉ rest :=
        fun member => distinct.1 (mem_map.mpr ⟨_, member, rfl⟩)
      simp [none, distinct.1, first]
    · simp [same]

theorem get?_readScalars (distinct : (entries.map Prod.fst).Nodup) {found : Dict Datum}
    (read : readScalars memory symbols entries {} = .ok found)
    {n : String} {d : Datum} : found.get? n = some d ↔ ∃ access, (n, access) ∈ entries ∧
    access.readElement memory symbols.get? = .ok d := by
  rw [get?_readScalars_from distinct read]
  exact or_iff_left nofun

theorem both_readScalars {inputs inputs' : Dict Access} {connector : String} {v : Datum}
    (drops : Dict.Drops connector access inputs inputs')
    (holds : access.readElement memory symbols.get? = .ok v) : Outcome.Both
    (fun scalars scalars' : Dict Datum => (scalars.get? connector = some v ∧ ∀ n, n ≠ connector →
      scalars'.get? n = scalars.get? n) ∧
        ∀ n d, scalars.get? n = some d → ∃ access, inputs.get? n = some access ∧
        access.readElement memory symbols.get? = .ok d)
      (readScalars memory symbols inputs.entries {})
        (readScalars memory symbols inputs'.entries {}) := by
  refine .of_iff ?_ ?_
  · rw [succeeds_readScalars, succeeds_readScalars]
    constructor
    · rintro all ⟨n, other⟩ member
      have known := drops.sorted'.mem_entries.mp member
      have apart : n ≠ connector := by
        rintro rfl
        rw [drops.gone] at known
        cases known
      exact all (n, other) (drops.sorted.mem_entries.mpr (drops.others n apart ▸ known))
    · rintro all ⟨n, other⟩ member
      have known := drops.sorted.mem_entries.mp member
      by_cases same : n = connector
      · subst same
        cases known.symm.trans drops.here
        exact ⟨v, holds⟩
      · exact all (n, other) (drops.sorted'.mem_entries.mpr ((drops.others n same).trans known))
  · intro scalars scalars' read read'
    have found {n : String} {d : Datum} := @get?_readScalars _ _ _ drops.sorted.nodup_keys _ read n
      d
    have found' {n : String} {d : Datum} := @get?_readScalars _ _ _ drops.sorted'.nodup_keys _ read'
      n d
    simp only [drops.sorted.mem_entries] at found
    simp only [drops.sorted'.mem_entries] at found'
    refine ⟨⟨found.mpr ⟨access, drops.here, holds⟩, fun n apart => Option.ext fun d => ?_⟩,
      fun n d => found.mp⟩
    rw [found, found', drops.others n apart]

end Effect.MapBody

structure Template.Swapped (i : Nat) (v : Datum) (pieces : List Template.Piece) (e : Expr)
    (t t' : Template) : Prop where
  swaps : Template.Swaps i v t t'
  formula : Template.Formula t.text pieces e
  texts : t.Suited pieces
  whole : Whole v
  written : Written v

structure MapNode.Swaps (i : Nat) (array : String) (m m' : MapNode) : Prop where
  axes : m'.axes = m.axes
  outputs : m'.outputs = m.outputs
  fixed : m.dynamic = {}
  fixed' : m'.dynamic = {}
  inputs : Dict.Drops ("__in" ++ i.repr) (.element array [.constant 0]) m.inputs m'.inputs
  elements : ∀ c a, m.inputs.get? c = some a → Effect.window? a = none
  connectors : ∀ c a, m.inputs.get? c = some a → ∃ k, c = "__in" ++ Nat.repr k

theorem MapNode.Swaps.elements' {i : Nat} {m m' : MapNode} (swaps : m.Swaps i array m') {c : String}
    {a : Access} (known : m'.inputs.get? c = some a) : Effect.window? a = none := by
  have apart : c ≠ "__in" ++ i.repr := by
    rintro rfl
    rw [swaps.inputs.gone] at known
    cases known
  exact swaps.elements c a (swaps.inputs.others c apart ▸ known)

structure Memory.Frame (output : String) (elem : ElemType) (before memory : Memory) : Prop where
  others : ∀ a, a ≠ output → memory.get? a = before.get? a
  elem : ∀ t, memory.get? output = some t → t.elem = elem

theorem Memory.Frame.readElement (frame : Memory.Frame output elem before memory)
    (apart : access.array ≠ output) (lookup : String → Option Int) :
    access.readElement memory lookup = access.readElement before lookup := by
  simp only [Access.readElement, Memory.array, frame.others _ apart]

theorem Memory.Frame.insert (frame : Memory.Frame output elem before memory) {t : Tensor}
    (typed : t.elem = elem) : Memory.Frame output elem before (Dict.insert memory output t) := by
  refine ⟨fun a apart => ?_, fun u found => ?_⟩
  · rw [Dict.get?_insert, if_neg apart, frame.others a apart]
  · rw [Dict.get?_insert, if_pos rfl] at found
    cases found
    exact typed

theorem Tensor.set_congr {t : Tensor} {d d' : Datum} (same : d.cast t.elem = d'.cast t.elem)
    (offset : Nat) : t.set offset d = t.set offset d' := by
  simp only [Tensor.set, ElemType.encode, same]

namespace Effect.MapBody

variable {elem : ElemType}

structure Swaps (i : Nat) (array : String) (v : Datum) (pieces : List Template.Piece) (e : Expr)
    (t t' : Template) (body body' : MapBody) : Prop where
  node : body.node.Swaps i array body'.node
  kernel : Template.Swapped i v pieces e t t'
  scans : t.Scans pieces
  value : body.value = e.fill (Filling.ofTexts t.texts).leaf
  value' : body'.value = e.fill (Filling.ofTexts t'.texts).leaf
  output : body'.output = body.output

-- Memory on which two such maps do the same to an output of the given type.
structure Suits (array : String) (v : Datum) (e : Expr) (elem : ElemType) (body : MapBody)
    (memory : Memory) : Prop where
  apart : ∀ c a, body.node.inputs.get? c = some a → a.array ≠ body.output.array
  holds : ∀ lookup, (Access.element array [.constant 0]).readElement memory lookup = .ok v
  numbers : asRead v = v ∨ e.Shallow ∧ (elem.isFloat = true → e.wraps = false) ∧
    (e.ordered = true → ∀ c a lookup d, body.node.inputs.get? c = some a →
      a.readElement memory lookup = .ok d → d.Small)

variable {i : Nat} {array : String} {v : Datum} {pieces : List Template.Piece} {e : Expr}
  {t t' : Template} {body body' : MapBody}

theorem elements_eq {m : MapBody} (sorted : m.node.inputs.Sorted)
    (all : ∀ c a, m.node.inputs.get? c = some a → window? a = none) :
    m.elements = m.node.inputs.entries ∧ m.windows = [] := by
  have none (entry : String × Access) (member : entry ∈ m.node.inputs.entries) :
    window? entry.2 = none :=
    all entry.1 entry.2 (sorted.mem_entries.mp member)
  constructor
  · rw [elements, filter_eq_self]
    intro entry member
    simp [none entry member]
  · rw [windows, filterMap_eq_nil_iff]
    intro entry member
    simp [none entry member]

theorem Swaps.both_value (swaps : Swaps i array v pieces e t t' body body')
    (suits : Suits array v e elem body before)
    (frame : Memory.Frame body.output.array elem before memory) {symbols : Symbols}
    {scalars' : Dict Datum} (known : scalars.get? ("__in" ++ i.repr) = some v)
    (others : ∀ n, n ≠ "__in" ++ i.repr → scalars'.get? n = scalars.get? n)
    (reads : ∀ n d, scalars.get? n = some d → ∃ access, body.node.inputs.get? n = some access ∧
      access.readElement memory symbols.get? = .ok d) :
    Outcome.Both (fun d d' => d.cast elem = d'.cast elem)
      (body.value.eval (body.scope memory scalars symbols))
      (body'.value.eval (body'.scope memory scalars' symbols)) := by
  have windows := (elements_eq swaps.node.inputs.sorted swaps.node.elements).2
  have windows' := (elements_eq swaps.node.inputs.sorted' fun c a known => swaps.node.elements'
    known).2
  have lacks : Scope.Lacks ("__in" ++ i.repr) v (body.scope memory scalars symbols)
    (body'.scope memory scalars' symbols) := by
    refine ⟨?_, fun n apart => ?_, fun name index => ?_⟩
    · simp only [scope, known]
      rfl
    · simp only [scope, others n apart]
    · simp only [scope, windowElement, windows, windows', Dict.lookup]
      exact .fails _ _
  have nan (d : Datum) (found : (body.scope memory scalars symbols).value? "NaN" = some d) :
    d.Signed := by
    have absent : scalars.get? "NaN" = none := by
      rw [Option.eq_none_iff_forall_ne_some]
      intro d found
      obtain ⟨a, listed, -⟩ := reads "NaN" d found
      obtain ⟨k, same⟩ := swaps.node.connectors _ _ listed
      have lists := congrArg String.toList same
      rw [String.toList_append] at lists
      cases lists
    simp only [scope, absent, Option.none_or, Option.map_eq_some_iff] at found
    obtain ⟨value, -, rfl⟩ := found
    exact trivial
  rw [swaps.value, swaps.value']
  obtain ⟨kernel, formula, texts, -, written⟩ := swaps.kernel
  rcases suits.numbers with alike | ⟨shallow, whole, small⟩
  · refine (kernel.both_eval formula written alike lacks swaps.scans nan texts).imp ?_
    rintro d _ rfl
    rfl
  · refine (kernel.both_eval_close formula written shallow lacks swaps.scans nan texts
      fun ordered k d found => ?_).imp fun d d' close => ?_
    · simp only [scope, Option.or_eq_some_iff, Option.map_eq_some_iff] at found
      rcases found with read | ⟨-, value, -, rfl⟩
      · obtain ⟨a, listed, read⟩ := reads _ d read
        exact small ordered _ a symbols.get? d listed (frame.readElement (suits.apart _ a listed)
          _ ▸ read)
      · exact trivial
    · cases float : elem.isFloat with
      | false => exact close.sameBits.cast_eq float
      | true =>
        rw [whole float] at close
        exact Datum.SameNumber.cast_eq close elem

theorem Swaps.both_runPoint (swaps : Swaps i array v pieces e t t' body body')
    (suits : Suits array v e elem body before)
    (frame : Memory.Frame body.output.array elem before memory) (symbols : Symbols)
    (point : List Int) :
    Outcome.Both (fun m m' => m = m' ∧ Memory.Frame body.output.array elem before m)
      (body.runPoint symbols memory point) (body'.runPoint symbols memory point) := by
  rw [runPoint, runPoint, swaps.node.axes, swaps.output]
  rw [(elements_eq swaps.node.inputs.sorted swaps.node.elements).1,
    (elements_eq swaps.node.inputs.sorted' fun c a known => swaps.node.elements' known).1]
  have apart := suits.apart _ _ swaps.node.inputs.here
  refine (both_readScalars swaps.node.inputs ((frame.readElement apart _).trans
    (suits.holds _))).bind ?_
  rintro scalars scalars' ⟨⟨known, others⟩, reads⟩
  refine (swaps.both_value suits frame known others reads).bind fun d d' same => ?_
  refine (Outcome.Both.refl (body.output.elementIndex _)).seq fun index => ?_
  cases found : memory.array body.output.array with
  | error failure => exact .fails _ _
  | ok u =>
    have typed : u.elem = elem := frame.elem u (Memory.array_eq_ok.mp found)
    refine (Outcome.Both.refl (u.locate body.output.array index)).seq fun offset => ?_
    rw [Tensor.set_congr (typed ▸ same)]
    cases written : u.set offset d' with
    | error failure => exact .fails _ _
    | ok w => exact .gives ⟨rfl, frame.insert ((Tensor.laidOutAs_set written).elem.trans typed)⟩

theorem Swaps.both_runPoints (swaps : Swaps i array v pieces e t t' body body')
    (suits : Suits array v e elem body before)
    (frame : Memory.Frame body.output.array elem before memory) (symbols : Symbols)
    (points : List (List Int)) : Outcome.Both Eq (body.runPoints symbols memory points)
      (body'.runPoints symbols memory points) := by
  induction points generalizing memory with
  | nil => exact .gives rfl
  | cons point rest ih =>
    rw [runPoints, runPoints]
    refine (swaps.both_runPoint suits frame symbols point).bind ?_
    rintro after _ ⟨rfl, frame⟩
    exact ih frame

end Effect.MapBody

theorem Effect.both_map {i : Nat} {v : Datum} {pieces : List Template.Piece} {e : Expr}
    {t t' : Template} {body body' : MapBody}
    (swaps : MapBody.Swaps i array v pieces e t t' body body')
    (suits : MapBody.Suits array v e elem body memory)
    (typed : ∀ u, memory.get? body.output.array = some u → u.elem = elem) (symbols : Symbols) :
    Outcome.Both Eq (map body memory symbols) (map body' memory symbols) := by
  have points : body'.points = body.points := by
    rw [MapBody.points, MapBody.points, swaps.node.axes]
  rw [map, map, swaps.node.fixed, swaps.node.fixed', points]
  exact (Outcome.Both.refl body.points).seq fun listed => swaps.both_runPoints suits
    ⟨fun _ _ => rfl, typed⟩ symbols listed

end TraceFlow
