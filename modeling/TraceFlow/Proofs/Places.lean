import TraceFlow.Proofs.FlatRules

set_option autoImplicit false

namespace TraceFlow

open List

variable {allowed : String → Prop} {shape : List Nat}

def Index.Over (allowed : String → Prop) (i : Index) : Prop :=
  ∀ s ∈ i.symbols, allowed s

theorem Index.over_constant (offset : Int) : (constant offset).Over allowed := by
  intro s none
  cases none

theorem Index.over_symbol {name : String} (here : allowed name) : (symbol name).Over allowed := by
  intro s member
  rw [mem_singleton.mp member]
  exact here

theorem Index.Over.plus {i j : Index} {offset : Int} (within : i.Over allowed)
    (made : i.plus offset = .ok j) : j.Over allowed := by
  obtain ⟨offset, -, made⟩ := bind_eq_ok.mp made
  cases made
  exact within

namespace Elementwise

variable {index : List Index}

theorem target_over (each : ∀ axis ∈ axes shape, allowed axis.param) :
    ∀ i ∈ target shape, i.Over allowed := by
  intro i member
  rw [target] at member
  split at member
  · rw [mem_singleton.mp member]
    exact Index.over_constant 0
  · obtain ⟨axis, known, rfl⟩ := mem_map.mp member
    exact Index.over_symbol (each axis known)

theorem broadcastIndex_over {source whole extents outers : List Nat} {axes : List Axis}
    (each : ∀ axis ∈ axes, allowed axis.param)
    (made : broadcastIndex source whole extents outers axes = .ok index) :
    ∀ i ∈ index, i.Over allowed := by
  induction extents generalizing outers axes index with
  | nil =>
    cases made
    simp
  | cons extent extents ih =>
    cases outers with
    | nil =>
      cases made
      simp
    | cons outer outers =>
      cases axes with
      | nil =>
        cases made
        simp
      | cons axis axes =>
        have here := each axis mem_cons_self
        have there := fun later member => each later (mem_cons_of_mem axis member)
        rw [broadcastIndex] at made
        split at made
        · obtain ⟨_, ⟨⟩, made⟩ := bind_eq_ok.mp made
          obtain ⟨others, later, made⟩ := bind_eq_ok.mp made
          cases made
          exact forall_mem_cons.mpr ⟨Index.over_symbol here, ih there later⟩
        split at made
        · obtain ⟨_, ⟨⟩, made⟩ := bind_eq_ok.mp made
          obtain ⟨others, later, made⟩ := bind_eq_ok.mp made
          cases made
          exact forall_mem_cons.mpr ⟨Index.over_constant 0, ih there later⟩
        · cases made

theorem defaultIndex_over {axes : List Axis} (each : ∀ axis ∈ axes, allowed axis.param)
    {source whole : List Nat}
    (made : defaultIndex axes source whole = .ok index) : ∀ i ∈ index, i.Over allowed := by
  rw [defaultIndex] at made
  split at made
  · cases made
    exact forall_mem_singleton.mpr (Index.over_constant 0)
  · exact broadcastIndex_over each made

def readsOf (op : Elementwise) (axes : List Axis) (names : List (Option String)) (e : Equation)
    (shape : List Nat) : Outcome (Dict Access) :=
  match op.reads? with
  | some reads => reads axes names e
  | none => op.defaultReads axes names e shape

theorem node_eq_ok {op : Elementwise} {names : List (Option String)} {output : String} {v : Var}
    {e : Equation} {m : MapNode} (made : op.node names output v e = .ok m) :
    ∃ inputs template filled code, op.readsOf (axes v.shape) names e v.shape = .ok inputs ∧
    op.kernel (axes v.shape) names e = .ok template ∧
      bindInputs op.connector 0 (names.zip e.inputs) template = .ok filled ∧
      filled.render = .ok code ∧
      m = { label := op.primitive ++ "_" ++ output, axes := axes v.shape, inputs, dynamic :=
        {}, code := "__out = " ++ code,
            outputs := Dict.ofList [("__out", .element output (target v.shape))] } := by
  unfold node at made
  unfold readsOf
  dsimp only at made ⊢
  cases known : op.reads? with
  | none | some reads =>
    simp only [known] at made
    obtain ⟨inputs, read, made⟩ := bind_eq_ok.mp made
    obtain ⟨template, kernel, made⟩ := bind_eq_ok.mp made
    obtain ⟨filled, bound, made⟩ := bind_eq_ok.mp made
    obtain ⟨code, rendered, made⟩ := bind_eq_ok.mp made
    cases made
    exact ⟨inputs, template, filled, code, read, kernel, bound, rendered, rfl⟩

end Elementwise

namespace Movement

variable {index : List Index} {axes : List Axis}
  {reads : List Axis → List (Option String) → Equation → Outcome (Dict Access)}

theorem orScalar_over (each : ∀ i ∈ index, i.Over allowed) :
    ∀ i ∈ orScalar index, i.Over allowed := by
  rw [orScalar]
  split
  · exact forall_mem_singleton.mpr (Index.over_constant 0)
  · exact each

theorem broadcastIndex_over (each : ∀ axis ∈ axes, allowed axis.param) {dims : List (Nat × Nat)}
    (made : broadcastIndex axes dims = .ok index) : ∀ i ∈ index, i.Over allowed := by
  induction dims generalizing index with
  | nil =>
    cases made
    simp
  | cons pair rest ih =>
    obtain ⟨dim, extent⟩ := pair
    rw [broadcastIndex] at made
    split at made
    · cases made
    next axis found =>
      have parts : ∃ (fixed : Bool) (others : List Index), broadcastIndex axes rest = .ok others ∧
          index = (if fixed then Index.constant 0 else Index.symbol axis.param) :: others := by
        dsimp only at made
        split at made
        · obtain ⟨size, -, made⟩ := bind_eq_ok.mp made
          obtain ⟨fixed, -, made⟩ := bind_eq_ok.mp made
          obtain ⟨others, later, made⟩ := bind_eq_ok.mp made
          cases made
          exact ⟨fixed, others, later, rfl⟩
        · obtain ⟨fixed, -, made⟩ := bind_eq_ok.mp made
          obtain ⟨others, later, made⟩ := bind_eq_ok.mp made
          cases made
          exact ⟨fixed, others, later, rfl⟩
      obtain ⟨fixed, others, later, rfl⟩ := parts
      refine forall_mem_cons.mpr ⟨?_, ih later⟩
      split
      · exact Index.over_constant 0
      · exact Index.over_symbol (each axis (mem_of_getElem? found))

theorem shiftedIndex_over (each : ∀ axis ∈ axes, allowed axis.param) {starts : List Int}
    (made : shiftedIndex axes starts = .ok index) : ∀ i ∈ index, i.Over allowed := by
  induction axes generalizing starts index with
  | nil =>
    cases made
    simp
  | cons axis axes ih =>
    cases starts with
    | nil =>
      cases made
      simp
    | cons start starts =>
      obtain ⟨first, shifted, made⟩ := bind_eq_ok.mp made
      obtain ⟨others, later, made⟩ := bind_eq_ok.mp made
      cases made
      exact forall_mem_cons.mpr ⟨(Index.over_symbol (each axis mem_cons_self)).plus shifted,
        ih (fun later member => each later (mem_cons_of_mem axis member)) later⟩

theorem squeezedIndex_over {removed : List Nat} (each : ∀ axis ∈ axes, allowed axis.param)
    {dim : Nat}
    (made : squeezedIndex removed axes dim shape = .ok index) : ∀ i ∈ index, i.Over allowed := by
  induction shape generalizing axes dim index with
  | nil =>
    cases made
    simp
  | cons extent rest ih =>
    rw [squeezedIndex.eq_def] at made
    dsimp only at made
    split at made
    · obtain ⟨others, later, made⟩ := bind_eq_ok.mp made
      cases made
      exact forall_mem_cons.mpr ⟨Index.over_constant 0, ih each later⟩
    · split at made
      next axis axes =>
        obtain ⟨others, later, made⟩ := bind_eq_ok.mp made
        cases made
        exact forall_mem_cons.mpr ⟨Index.over_symbol (each axis mem_cons_self),
          ih (fun later member => each later (mem_cons_of_mem axis member)) later⟩
      · cases made

-- Reads of the first input at places that do not depend on its name.
structure ReadsFirst (reads : List Axis → List (Option String) → Equation → Outcome (Dict Access)) :
    Prop where
  first :
    ∀ {allowed : String → Prop} {axes : List Axis} {e : Equation} {name : String}
      {others : List (Option String)} {d : Dict Access},
    (∀ axis ∈ axes, allowed axis.param) → reads axes (some name :: others) e = .ok d → ∃ index,
    (∀ i ∈ index, i.Over allowed) ∧ d = readFirst name index ∧
      ∀ name' others', reads axes (some name' :: others') e = .ok (readFirst name' index)
  missing : ∀ {axes : List Axis} {e : Equation} {d : Dict Access}, reads axes [] e = .ok d → d = {}
  literal : ∀ {axes : List Axis} {e : Equation} {others : List (Option String)} {d : Dict Access},
    reads axes (none :: others) e = .ok d → d = {}

theorem readsFirst_broadcast (known : broadcast.reads? = some reads) : ReadsFirst reads := by
  cases known
  refine ⟨fun {allowed axes e name others d} each read => ?_, fun read => ?_, fun read => ?_⟩
  · obtain ⟨dims, sized, read⟩ := bind_eq_ok.mp read
    obtain ⟨shape, shaped, read⟩ := bind_eq_ok.mp read
    obtain ⟨fits, read⟩ := unless_eq_ok.mp read
    obtain ⟨index, made, read⟩ := bind_eq_ok.mp read
    cases read
    refine ⟨_, orScalar_over (broadcastIndex_over each made), rfl, fun name' others' => ?_⟩
    simp only [sized, shaped, fits, made, ok_bind, if_false]
    rfl
  · cases read
    rfl
  · cases read
    rfl

theorem readsFirst_slice (known : slice.reads? = some reads) : ReadsFirst reads := by
  cases known
  refine ⟨fun {allowed axes e name others d} each read => ?_, fun read => ?_, fun read => ?_⟩
  · obtain ⟨unit, read⟩ := unless_eq_ok.mp read
    obtain ⟨starts, started, read⟩ := bind_eq_ok.mp read
    obtain ⟨shape, shaped, read⟩ := bind_eq_ok.mp read
    obtain ⟨fits, read⟩ := unless_eq_ok.mp read
    have again : ∃ index : List Index, (∀ i ∈ index, i.Over allowed) ∧ ∀ name',
      (if starts.isEmpty then pure (readFirst name' [Index.constant 0])
        else do return readFirst name' (← shiftedIndex axes starts) :
        Outcome (Dict Access)) = .ok (readFirst name' index) := by
      split at read
      next empty =>
        refine ⟨_, ?_, fun name' => by rw [if_pos empty]; rfl⟩
        exact forall_mem_singleton.mpr (Index.over_constant 0)
      next full =>
        obtain ⟨index, made, -⟩ := bind_eq_ok.mp read
        exact ⟨index, shiftedIndex_over each made, fun name' => by rw [if_neg full, made]; rfl⟩
    obtain ⟨index, indices, again⟩ := again
    cases (again name).symm.trans read
    refine ⟨index, indices, rfl, fun name' others' => ?_⟩
    simp only [unit, started, shaped, fits, ok_bind, if_false]
    exact again name'
  · cases (unless_eq_ok.mp read).2
  · cases (unless_eq_ok.mp read).2

theorem readsFirst_squeeze (known : squeeze.reads? = some reads) : ReadsFirst reads := by
  cases known
  refine ⟨fun {allowed axes e name others d} each read => ?_, fun read => ?_, fun read => ?_⟩
  · obtain ⟨removed, sized, read⟩ := bind_eq_ok.mp read
    obtain ⟨shape, shaped, read⟩ := bind_eq_ok.mp read
    obtain ⟨index, made, read⟩ := bind_eq_ok.mp read
    cases read
    refine ⟨_, orScalar_over (squeezedIndex_over each made), rfl, fun name' others' => ?_⟩
    simp only [sized, shaped, made, ok_bind]
    rfl
  · cases read
  · cases read

end Movement

end TraceFlow
