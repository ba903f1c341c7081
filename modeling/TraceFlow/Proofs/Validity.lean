import Mathlib.Data.List.Sort
import TraceFlow.Graph.Check
import TraceFlow.Proofs.Contraction
import TraceFlow.Proofs.Dict

set_option autoImplicit false

namespace TraceFlow

open List

-- The same array in another layout or storage.
structure Descriptor.Similar (d d' : Descriptor) : Prop where
  shape : d'.shape = d.shape
  elem : d'.elem = d.elem
  transient : d'.transient = d.transient

theorem Descriptor.Similar.same (arrays : Dict Descriptor) :
    arrays.Forall₂ (fun _ => Descriptor.Similar) arrays :=
  Dict.forall₂_same (fun _ _ => ⟨rfl, rfl, rfl⟩) arrays

namespace Graph

open Outcome

variable {id : Nat} {g : Graph}

def rewired (g : Graph) (states : List State) (edges : List Edge) (start : Nat) : Graph :=
  { g with states := states, edges := edges, start := start }

def checkNode (g : Graph) (id : Nat) : Node → Outcome Unit
  | .copy source target => checkCopy g id source target
  | .map m => checkMap g id m
  | .call site callee => do
    check callee
    checkCall g id site callee

theorem checkNodes_eq (g : Graph) (id : Nat) (nodes : List Node) :
    checkNodes g id nodes = nodes.forM (checkNode g id) := by
  induction nodes with
  | nil => rfl
  | cons node rest ih =>
    cases node with
    | copy source target => simp [checkNodes, checkNode, ih]
    | map m => simp [checkNodes, checkNode, ih]
    | call site callee => simp [checkNodes, checkNode, ih]

theorem likewise_checkAxes (place place' : String) (params : List String) (axes : List Axis) :
    Likewise Eq (checkAxes place params axes) (checkAxes place' params axes) := by
  induction axes generalizing params with
  | nil => exact .gives rfl
  | cons axis rest ih =>
    exact .ite (fun _ => .fails rfl) fun _ => .ite (fun _ => .fails rfl) fun _ => ih _

-- What the checks read of a graph besides its states.
structure Similar (g g' : Graph) : Prop where
  arrays : g.arrays.Forall₂ (fun _ => Descriptor.Similar) g'.arrays
  symbols : g'.symbols = g.symbols
  args : g'.args = g.args

namespace Similar

variable {g' : Graph} (similar : g.Similar g')

include similar

theorem checkSubscripts (locals : List String) (access : Access) (dim : Nat)
    (parts : List (Subscript × Nat)) : Likewise Eq (Graph.checkSubscripts g locals access dim parts)
      (Graph.checkSubscripts g' locals access dim parts) := by
  induction parts generalizing dim with
  | nil => exact .gives rfl
  | cons part rest ih =>
    obtain ⟨subscript, extent⟩ := part
    rw [Graph.checkSubscripts, Graph.checkSubscripts, similar.symbols]
    refine .ite (fun _ => .seq (.of_eq rfl) fun _ => .fails rfl) fun _ => .seq
      (.forM fun symbol _ => ?_) fun _ => ih (dim + 1)
    exact .ite (fun _ => .seq (.of_eq rfl) fun _ => .fails rfl) fun _ => .gives rfl

theorem checkAccess (locals : List String) (access : Access) :
    Likewise Eq (Graph.checkAccess g locals access) (Graph.checkAccess g' locals access) := by
  unfold Graph.checkAccess array?
  match g.arrays.get? access.array, g'.arrays.get? access.array,
    similar.arrays.get? access.array with
  | _, _, .none => exact .seq (.of_eq rfl) fun _ => .fails rfl
  | _, _, .some alike =>
    simp only [Descriptor.rank, alike.shape]
    exact .ite (fun _ => .seq (.of_eq rfl) fun _ => .fails rfl) fun _ => similar.checkSubscripts
      locals access 0 _

theorem checkBinding (symbol : String) (binding : Binding) :
    Likewise Eq (Graph.checkBinding g symbol binding) (Graph.checkBinding g' symbol binding) := by
  unfold Graph.checkBinding
  rw [similar.arrays.contains]
  refine .ite (fun _ => .fails rfl) fun _ => ?_
  cases binding with
  | const value => exact .gives rfl
  | element access =>
    exact (similar.checkAccess [] access).bind fun _ _ _ => .ite (fun _ => .fails rfl) fun _ =>
      .gives rfl

theorem checkCopy (id id' : Nat) (source target : Access) :
    Likewise Eq (Graph.checkCopy g id source target) (Graph.checkCopy g' id' source target) := by
  refine .seq (similar.checkAccess [] source) fun _ => .seq (similar.checkAccess [] target) fun _ =>
    ?_
  refine .seq (.of_eq rfl) fun read => .seq (.of_eq rfl) fun written => .ite (fun _ => ?_) fun _ =>
    .gives rfl
  exact .seq (.of_eq rfl) fun _ => .seq (.of_eq rfl) fun _ => .fails rfl

theorem checkMap (id id' : Nat) (m : MapNode) : Likewise Eq (Graph.checkMap g id m)
    (Graph.checkMap g' id' m) := by
  refine .ite (fun _ => .fails rfl) fun _ => .ite (fun _ => .fails rfl) fun _ => .seq
    (likewise_checkAxes _ _ [] m.axes) fun params => ?_
  refine .seq (.forM fun entry _ => ?_) fun _ => .forM fun access _ => similar.checkAccess _ access
  exact .seq (similar.checkAccess [] entry.2) fun _ => .seq (.of_eq rfl) fun _ => .ite
    (fun _ => .fails rfl) fun _ => .gives rfl

theorem checkConnector (callee : Graph) (place place' inner outer : String) :
    Likewise Eq (Graph.checkConnector g callee place inner outer)
      (Graph.checkConnector g' callee place' inner outer) := by
  unfold Graph.checkConnector array?
  match g.arrays.get? outer, g'.arrays.get? outer, similar.arrays.get? outer with
  | _, _, .none => exact .fails rfl
  | _, _, .some alike =>
    cases callee.arrays.get? inner with
    | none => exact .fails rfl
    | some inner =>
      simp only [Descriptor.count, alike.shape, alike.elem]
      exact .ite (fun _ => .fails rfl) fun _ => .seq (.of_eq rfl) fun _ => .seq (.of_eq rfl)
        fun _ => .ite (fun _ => .fails rfl) fun _ => .gives rfl

theorem checkNode (id id' : Nat) (node : Node) : Likewise Eq (Graph.checkNode g id node)
    (Graph.checkNode g' id' node) := by
  cases node with
  | copy source target => exact similar.checkCopy id id' source target
  | map m => exact similar.checkMap id id' m
  | call site callee =>
    refine .seq (.of_eq rfl) fun _ => .seq (.forM fun entry _ => similar.checkConnector ..) fun _ =>
      .forM fun _ _ => ?_
    exact .ite (fun _ => .fails rfl) fun _ => .gives rfl

theorem checkConstant (name : String) : Likewise Eq (Graph.checkConstant g name)
    (Graph.checkConstant g' name) := by
  unfold Graph.checkConstant array?
  match g.arrays.get? name, g'.arrays.get? name, similar.arrays.get? name with
  | _, _, .none => exact .fails rfl
  | _, _, .some alike =>
    simp only [alike.transient]
    exact .ite (fun _ => .gives rfl) fun _ => .fails rfl

theorem checkSignature : Likewise Eq (Graph.checkSignature g) (Graph.checkSignature g') := by
  have argument (seen : List String) (name : String) :
    Likewise Eq (checkArgument g seen name) (checkArgument g' seen name) := by
    refine .ite (fun _ => .fails rfl) fun _ => ?_
    unfold array?
    match g.arrays.get? name, g'.arrays.get? name, similar.arrays.get? name with
    | _, _, .none => exact .fails rfl
    | _, _, .some alike =>
      simp only [alike.transient]
      exact .ite (fun _ => .fails rfl) fun _ => .gives rfl
  have arguments (seen names : List String) :
    Likewise Eq (checkArguments g seen names) (checkArguments g' seen names) := by
    induction names generalizing seen with
    | nil => exact .gives rfl
    | cons name rest ih => exact .seq (argument seen name) fun _ => ih _
  have listed := similar.arrays
  unfold Graph.checkSignature
  rw [similar.args]
  refine .ite (fun _ => .seq (arguments [] g.args) fun _ => ?_) fun _ => .gives rfl
  unfold Dict.Forall₂ at listed
  generalize g.arrays.entries = entries, g'.arrays.entries = entries' at listed
  induction listed with
  | nil => exact .gives rfl
  | cons head _ ih =>
    obtain ⟨same, alike⟩ := head
    refine .seq ?_ fun _ => ih
    simp only [same, alike.transient]
    exact .ite (fun _ => .fails rfl) fun _ => .gives rfl

end Similar

theorem similar_refl : g.Similar g :=
  ⟨Descriptor.Similar.same _, rfl, rfl⟩

theorem invalid_eq {α : Type} (place reason : String) :
    (invalid place reason : Outcome α) = .error (.error (.validation (place ++ ": " ++ reason))) :=
    rfl

theorem checkCopy_eq_ok {source target : Access} : checkCopy g id source target = .ok () ↔
      checkAccess g [] source = .ok () ∧ checkAccess g [] target = .ok () ∧
        ∃ count, source.volume = .ok count ∧ target.volume = .ok count := by
  simp only [checkCopy, bind_eq_ok, invalid_eq]
  constructor
  · rintro ⟨_, read, _, written, count, volume, count', volume', same⟩
    split at same
    · simp [bind_eq_ok] at same
    next equal =>
      rw [not_not] at equal
      exact ⟨read, written, count, volume, equal ▸ volume'⟩
  · rintro ⟨read, written, count, volume, volume'⟩
    exact ⟨(), read, (), written, count, volume, count, volume', by simp⟩

theorem checkMap_eq_ok {m : MapNode} : checkMap g id m = .ok () ↔
      m.outputs.isEmpty = false ∧ m.code.toList.contains '=' = true ∧ ∃ params, checkAxes ""
        [] m.axes = .ok params ∧
        (∀ entry ∈ m.dynamic.entries, checkAccess g [] entry.2 = .ok () ∧ entry.2.volume = .ok 1) ∧
        ∀ access ∈ m.accesses, checkAccess g (params ++ m.dynamic.keys) access = .ok () := by
  have dynamic (place : String) (entry : String × Access) :
      (do checkAccess g [] entry.2
          if (← entry.2.volume) ≠ 1 then
            invalid place s!"dynamic input '{entry.1}' must read a single element") = .ok () ↔
        checkAccess g [] entry.2 = .ok () ∧ entry.2.volume = .ok 1 := by
    simp only [bind_eq_ok, invalid_eq]
    constructor
    · rintro ⟨_, reads, count, volume, single⟩
      split at single
      · cases single
      next one =>
        rw [not_not] at one
        exact ⟨reads, one ▸ volume⟩
    · rintro ⟨reads, volume⟩
      exact ⟨(), reads, 1, volume, by simp⟩
  rw [checkMap]
  by_cases outputs : m.outputs.isEmpty = true
  · simp [outputs, invalid_eq]
  · by_cases code : m.code.toList.contains '=' = true
    · simp only [outputs, code, Bool.not_true, Bool.false_eq_true, if_false, bind_eq_ok, true_and]
      constructor
      · rintro ⟨params, axes, ⟨⟩, symbols, accesses⟩
        refine ⟨params, (likewise_checkAxes ..).to_ok axes, ?_, forM_eq_ok.mp accesses⟩
        intro entry member
        exact (dynamic _ entry).mp (forM_eq_ok.mp symbols entry member)
      · rintro ⟨params, axes, symbols, accesses⟩
        refine ⟨params, (likewise_checkAxes ..).to_ok axes, (), ?_, forM_eq_ok.mpr accesses⟩
        exact forM_eq_ok.mpr fun entry member => (dynamic _ entry).mpr (symbols entry member)
    · rw [Bool.not_eq_true] at code
      simp only [outputs, code, Bool.not_false, if_true, Bool.false_eq_true, if_false, invalid_eq,
        error_bind]
      simp

theorem checkCall_eq_ok {site : CallSite} {callee : Graph} : checkCall g id site callee = .ok () ↔
      (∀ entry ∈ site.inputs.entries ++ site.outputs.entries,
        checkConnector g callee "" entry.1 entry.2 = .ok ()) ∧
        ∀ symbol ∈ callee.freeSymbols, site.symbols.contains symbol = true := by
  have mapped (place symbol : String) :
      (if !site.symbols.contains symbol then
        invalid place s!"child symbol '{symbol}' is not mapped" else pure ()) =
        Except.ok () ↔ site.symbols.contains symbol = true := by
    cases site.symbols.contains symbol <;> simp [invalid_eq]
  simp only [checkCall, bind_eq_ok]
  constructor
  · rintro ⟨⟨⟩, connectors, symbols⟩
    refine ⟨?_, fun symbol member => (mapped _ symbol).mp (forM_eq_ok.mp symbols symbol member)⟩
    exact fun entry member => (similar_refl.checkConnector ..).to_ok
      (forM_eq_ok.mp connectors entry member)
  · rintro ⟨connectors, symbols⟩
    refine ⟨(), ?_, forM_eq_ok.mpr fun symbol member => (mapped _ symbol).mpr
      (symbols symbol member)⟩
    exact forM_eq_ok.mpr fun entry member => (similar_refl.checkConnector ..).to_ok
      (connectors entry member)

theorem checkStateList_eq_ok {states : List State} : checkStateList g id states = .ok () ↔
    ∀ s ∈ states, ∀ node ∈ s.nodes, checkNode g 0 node = .ok () := by
  induction states generalizing id with
  | nil => simp [checkStateList]
  | cons s rest ih =>
    obtain ⟨label, nodes⟩ := s
    simp only [checkStateList, checkNodes_eq, bind_eq_ok, ih, mem_cons, forall_eq_or_imp]
    constructor
    · rintro ⟨⟨⟩, here, others⟩
      exact ⟨fun node member => (similar_refl.checkNode ..).to_ok (forM_eq_ok.mp here node member),
        others⟩
    · rintro ⟨here, others⟩
      exact ⟨(), forM_eq_ok.mpr fun node member => (similar_refl.checkNode ..).to_ok
        (here node member), others⟩

theorem checkEdge_eq_ok {e : Edge} :
    checkEdge g e = .ok () ↔ (e.source < g.states.length ∧ e.target < g.states.length) ∧
      ∀ entry ∈ e.assignments.entries, checkBinding g entry.1 entry.2 = .ok () := by
  by_cases ends : e.source < g.states.length ∧ e.target < g.states.length
  · simp only [checkEdge, hasState, ends, decide_true, Bool.not_true, Bool.or_self,
      Bool.false_eq_true, if_false,
      forM_eq_ok, and_self, true_and]
  · have dangling : (!g.hasState e.source || !g.hasState e.target) = true := by
      simpa [hasState, imp_iff_not_or] using ends
    simp [checkEdge, dangling, invalid_eq, ends]

theorem checkStates_eq_ok : checkStates g = .ok () ↔ g.InRange ∧ g.Connected ∧
      ∀ e ∈ g.edges, ∀ entry ∈ e.assignments.entries, checkBinding g entry.1 entry.2 = .ok () := by
  by_cases started : g.start < g.states.length
  · simp only [checkStates, hasState, started, decide_true, Bool.not_true, Bool.false_eq_true,
      if_false, bind_eq_ok,
      invalid_eq]
    constructor
    · rintro ⟨⟨⟩, edges, reached⟩
      rw [forM_eq_ok] at edges
      have inRange : g.InRange := ⟨started, fun e member => (checkEdge_eq_ok.mp (edges e member)).1⟩
      split at reached
      · cases reached
      next all =>
        rw [not_not, length_reachable_iff inRange] at all
        exact ⟨inRange, all, fun e member => (checkEdge_eq_ok.mp (edges e member)).2⟩
    · rintro ⟨inRange, connected, bindings⟩
      have all := (length_reachable_iff inRange).mpr connected
      refine ⟨(), forM_eq_ok.mpr fun e member => ?_, by simp [all]⟩
      exact checkEdge_eq_ok.mpr ⟨inRange.edges e member, bindings e member⟩
  · have outside : (!g.hasState g.start) = true := by simpa [hasState] using started
    constructor
    · intro passes
      simp [checkStates, outside, invalid_eq] at passes
    · rintro ⟨inRange, -, -⟩
      exact absurd inRange.start started

structure Valid (g : Graph) : Prop where
  inRange : g.InRange
  connected : g.Connected
  bindings : ∀ e ∈ g.edges, ∀ entry ∈ e.assignments.entries, checkBinding g entry.1 entry.2 = .ok ()
  nodes : ∀ node ∈ g.nodes, checkNode g 0 node = .ok ()
  constants : ∀ name ∈ g.constants.keys, checkConstant g name = .ok ()
  signature : checkSignature g = .ok ()

theorem check_eq (g : Graph) : g.check = (do
      checkStates g
      checkStateList g 0 g.states
      g.constants.keys.forM (checkConstant g)
      checkSignature g) := by
  cases g
  rfl

theorem check_eq_ok : g.check = .ok () ↔ g.Valid := by
  simp only [check_eq, bind_eq_ok]
  constructor
  · rintro ⟨⟨⟩, states, ⟨⟩, nodes, ⟨⟩, constants, signature⟩
    obtain ⟨inRange, connected, bindings⟩ := checkStates_eq_ok.mp states
    refine ⟨inRange, connected, bindings, ?_, forM_eq_ok.mp constants, signature⟩
    intro node member
    obtain ⟨s, state, member⟩ := mem_flatMap.mp member
    exact checkStateList_eq_ok.mp nodes s state node member
  · intro valid
    refine ⟨(), checkStates_eq_ok.mpr ⟨valid.inRange, valid.connected, valid.bindings⟩, (), ?_, (),
      forM_eq_ok.mpr valid.constants, valid.signature⟩
    exact checkStateList_eq_ok.mpr fun s state node member =>
      valid.nodes node (mem_flatMap.mpr ⟨s, state, member⟩)

theorem Valid.similar {g' : Graph} (valid : g.Valid) (similar : g.Similar g')
    (constants : g'.constants = g.constants) (inRange : g'.InRange) (connected : g'.Connected)
    (edges : ∀ e ∈ g'.edges, ∃ old ∈ g.edges, e.assignments = old.assignments)
    (nodes : ∀ node ∈ g'.nodes, checkNode g 0 node = .ok ()) : g'.Valid := by
  refine ⟨inRange, connected, fun e member entry assigned => ?_, fun node member => ?_,
    fun name member => ?_, ?_⟩
  · obtain ⟨old, known, same⟩ := edges e member
    exact (similar.checkBinding _ _).to_ok (valid.bindings old known entry (same ▸ assigned))
  · exact (similar.checkNode 0 0 node).to_ok (nodes node member)
  · exact (similar.checkConstant name).to_ok (valid.constants name (constants ▸ member))
  · exact similar.checkSignature.to_ok valid.signature

theorem similar_rewired (g : Graph) (states : List State) (edges : List Edge) (start : Nat) :
    g.Similar (g.rewired states edges start) :=
  ⟨Descriptor.Similar.same _, rfl, rfl⟩

theorem Valid.rewires {g' : Graph} (valid : g.Valid) (rewires : g.Rewires g') : g'.Valid := by
  have declared : g' = g.rewired g'.states g'.edges g'.start := rewires.declared
  refine valid.similar (declared ▸ similar_rewired ..) (by rw [declared]; rfl) rewires.inRange
    (rewires.connected valid.connected) ?_ ?_
  · intro e member
    obtain ⟨old, known, -, same⟩ := rewires.found e member
    exact ⟨old, known, same⟩
  · exact fun node member => valid.nodes node (rewires.nodes.mem_iff.mp member)

theorem mem_keys_insertAll {names : List String} {set : Dict Unit} {name : String} :
    name ∈ (insertAll names set).keys ↔ name ∈ names ∨ name ∈ set.keys := by
  induction names generalizing set with
  | nil => simp [insertAll]
  | cons first rest ih =>
    have step : insertAll (first :: rest) set = insertAll rest (set.insert first ()) := rfl
    rw [step, ih, Dict.mem_keys_insert, mem_cons]
    grind

theorem mem_freeSymbols {symbol : String} : symbol ∈ g.freeSymbols ↔
      (symbol ∈ g.symbols.keys ∨ (∃ e ∈ g.edges, symbol ∈ e.guardSymbols) ∨ ∃ node ∈ g.nodes,
        symbol ∈ node.symbols) ∧ ∀ e ∈ g.edges, symbol ∉ e.assignments.keys := by
  have none : ¬ symbol ∈ ({} : Dict Unit).keys := not_mem_nil
  simp only [freeSymbols, mem_filter, mem_keys_insertAll, none, or_false, mem_append, mem_flatMap,
    decide_eq_true_eq, not_exists, not_and, nodes, or_assoc]
  grind

theorem Edge.guardSymbols_eq {e e' : Edge} (same : e.guard? = e'.guard?) :
    e.guardSymbols = e'.guardSymbols := by
  rw [Edge.guardSymbols, Edge.guardSymbols, same]

theorem freeSymbols_congr {g' : Graph}
    (same : ∀ symbol, symbol ∈ g'.freeSymbols ↔ symbol ∈ g.freeSymbols) :
    g'.freeSymbols = g.freeSymbols := by
  have sorted (g : Graph) : g.freeSymbols.Pairwise (· < ·) := by
    have inserted (names : List String) (set : Dict Unit) (known : set.Sorted) :
      (insertAll names set).Sorted := by
      induction names generalizing set with
      | nil => exact known
      | cons name rest ih => exact ih _ (Dict.sorted_insert known name ())
    exact (pairwise_map.mpr (inserted _ {} Dict.sorted_empty)).filter _
  exact (sorted g').eq_of_mem_iff (sorted g) same

theorem Rewires.freeSymbols {g' : Graph} (rewires : g.Rewires g') :
    g'.freeSymbols = g.freeSymbols := by
  have plain {e : Edge} (plain : e.isPlain = true) (symbol : String) : symbol ∉ e.guardSymbols ∧
    symbol ∉ e.assignments.keys := by
    simp only [Edge.isPlain, Bool.and_eq_true, Option.isNone_iff_eq_none, Dict.isEmpty,
      List.isEmpty_iff] at plain
    simp [Edge.guardSymbols, Dict.keys, plain.1, plain.2]
  refine freeSymbols_congr fun symbol => ?_
  have guards : (∃ e ∈ g'.edges, symbol ∈ e.guardSymbols) ↔ ∃ e ∈ g.edges,
    symbol ∈ e.guardSymbols := by
    constructor
    · rintro ⟨e, member, uses⟩
      obtain ⟨old, known, same, -⟩ := rewires.found e member
      exact ⟨old, known, Edge.guardSymbols_eq same ▸ uses⟩
    · rintro ⟨old, known, uses⟩
      rcases rewires.kept old known with empty | ⟨e, member, same, -⟩
      · exact absurd uses (plain empty symbol).1
      · exact ⟨e, member, Edge.guardSymbols_eq same ▸ uses⟩
  have assigned : (∀ e ∈ g'.edges, symbol ∉ e.assignments.keys) ↔ ∀ e ∈ g.edges,
    symbol ∉ e.assignments.keys := by
    constructor
    · intro none old known
      rcases rewires.kept old known with empty | ⟨e, member, -, same⟩
      · exact (plain empty symbol).2
      · exact same ▸ none e member
    · intro none e member
      obtain ⟨old, known, -, same⟩ := rewires.found e member
      exact same ▸ none old known
  have declared : g'.symbols = g.symbols := by rw [rewires.declared]
  simp only [mem_freeSymbols, guards, assigned, declared, rewires.nodes.mem_iff]

end Graph

end TraceFlow
