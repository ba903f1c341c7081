import Mathlib.Data.List.Nodup
import Mathlib.Data.List.Perm.Subperm
import TraceFlow.Lowering.Basic
import TraceFlow.Proofs.FreshNames

set_option autoImplicit false

namespace TraceFlow.Builder

open List

def marks : List String :=
  ["", Lowering.constantMark, Lowering.aliasMark]

variable {d : Draft} {outer : List Draft} {mapped unnamed : Nat} {v : Var} {vs : List Var}
  {before : String} {array : Descriptor}

theorem isIdentifier_marked (marked : before ∈ marks) {name : String}
    (identifier : Naming.isIdentifier name = true) :
    Naming.isIdentifier (before ++ name) = true := by
  simp only [marks, mem_cons, not_mem_nil, or_false] at marked
  rcases marked with rfl | rfl | rfl
  · rw [String.empty_append, identifier]
  · exact Naming.isIdentifier_append (by decide) identifier
  · exact Naming.isIdentifier_append (by decide) identifier

theorem isReserved_marked (marked : before ∈ marks) {name : String}
    (allowed : Naming.isReserved name = false) : Naming.isReserved (before ++ name) = false := by
  simp only [marks, mem_cons, not_mem_nil, or_false] at marked
  rcases marked with rfl | rfl | rfl
  · rw [String.empty_append, allowed]
  · exact Naming.isReserved_append (by decide) name
  · exact Naming.isReserved_append (by decide) name

-- There are more names to try than arrays, and they all differ.
theorem exists_untaken (arrays : Dict Descriptor) (before : String) (n : Nat) :
    ∃ k ≤ arrays.size, arrays.contains (before ++ Naming.fresh (n + k)) = false := by
  by_contra none
  simp only [not_exists, not_and, Bool.not_eq_false] at none
  have listed : (List.range (arrays.size + 1)).map (fun k => before ++ Naming.fresh (n + k)) ⊆
    arrays.keys := by
    intro name member
    obtain ⟨k, few, rfl⟩ := mem_map.mp member
    have taken := none k (Nat.le_of_lt_succ (mem_range.mp few))
    by_contra absent
    rw [Dict.contains, Dict.get?, Dict.lookup_eq_none.mpr absent] at taken
    cases taken
  have distinct : ((List.range (arrays.size + 1)).map fun k => before ++
    Naming.fresh (n + k)).Nodup := by
    refine List.Nodup.map (fun j k same => ?_) nodup_range
    have numbers := Naming.fresh_injective ((String.append_right_inj before).mp same)
    omega
  have few := (subperm_of_subset distinct listed).length_le
  rw [length_map, length_range, Dict.keys, length_map] at few
  exact absurd few (Nat.not_succ_le_self _)

theorem freshFrom_untaken (arrays : Dict Descriptor) (before : String) (n : Nat) :
    ∃ k ≤ arrays.size, freshFrom (fun name => arrays.contains (before ++ name)) arrays.size n =
    Naming.fresh (n + k) ∧ arrays.contains (before ++ Naming.fresh (n + k)) = false := by
  obtain ⟨k, few, found, earlier, free⟩ :=
    freshFrom_cases (fun name => arrays.contains (before ++ name)) arrays.size n
  refine ⟨k, few, found, ?_⟩
  rcases Nat.lt_or_eq_of_le few with fewer | rfl
  · exact free fewer
  · obtain ⟨j, few, free⟩ := exists_untaken arrays before n
    rcases Nat.lt_or_eq_of_le few with fewer | rfl
    · exact absurd (earlier j fewer) (by rw [free]; decide)
    · exact free

theorem exists_newArray (used : v.isDropped = false) (unmapped : d.nameOf? v = none)
    (unasked : v.explicitName? = none) (marked : before ∈ marks)
    (dense : Descriptor.dense (arrayShape v) v.elem = .ok array) (mapped : Nat) :
    ∃ k ≤ d.graph.arrays.size, NewArray d mapped v before
      (before ++ Naming.fresh (mapped + k)) array := by
  obtain ⟨k, few, found, free⟩ := freshFrom_untaken d.graph.arrays before mapped
  have proposed : d.proposed mapped v before = Naming.fresh (mapped + k) := by
    rw [Draft.proposed, unmapped, unasked]
    exact found
  exact ⟨k, few, used, by rw [proposed], free,
    isIdentifier_marked marked (Naming.isIdentifier_fresh _),
    isReserved_marked marked (Naming.isReserved_fresh _), dense⟩

theorem Awaits.gives_addArrays (awaits : Awaits d mapped vs) (nameable : Var.Nameable vs)
    (unasked : ∀ v ∈ vs, v.explicitName? = none)
    (dense : ∀ v ∈ vs, ∃ array, Descriptor.dense (arrayShape v) v.elem = .ok array) :
    ∃ d', Gives (vs.mapM fun v => addArray v "" true) ⟨d :: outer, mapped, unnamed⟩
      ((List.range vs.length).map fun k => Naming.fresh (mapped + k))
      ⟨d' :: outer, mapped + vs.length, unnamed⟩ := by
  induction vs generalizing d mapped with
  | nil => exact ⟨d, rfl⟩
  | cons v vs ih =>
    obtain ⟨⟨array, first⟩, dense⟩ := forall_mem_cons.mp dense
    obtain ⟨none, unasked⟩ := forall_mem_cons.mp unasked
    obtain ⟨name, made, later⟩ := awaits.newArray nameable first
    obtain ⟨d', others⟩ := ih later nameable.tail unasked dense
    have named : name = Naming.fresh mapped := by
      obtain ⟨-, asks | ⟨-, fresh⟩⟩ := awaits.free nameable
      · rw [none] at asks
        cases asks
      · rw [made.proposed, fresh, String.empty_append]
    have added : Gives (addArray v "" true) ⟨d :: outer, mapped, unnamed⟩ name _ :=
      (gives_addArray fun _ => awaits.unmapped v mem_cons_self).mpr ⟨array, made, rfl⟩
    refine ⟨d', ?_⟩
    rw [mapM_cons, length_cons, range_succ_eq_map, map_cons, map_map, Nat.add_zero, ← named]
    refine .bind added (.bind others (gives_pure.mpr ⟨?_, ?_⟩))
    · simp only [Function.comp_def, Nat.succ_eq_add_one, Nat.add_right_comm mapped 1, Nat.add_assoc]
    · rw [Nat.add_right_comm, Nat.add_assoc]

theorem addArray_unnamed :
    (∀ (d : Draft) (outer : List Draft) (mapped unnamed : Nat) (v : Var) (before : String)
      (record : Bool) (array : Descriptor),
      v.isDropped = false → d.nameOf? v = none → v.explicitName? = none → before ∈ marks →
      Descriptor.dense (arrayShape v) v.elem = .ok array →
      ∃ k ≤ d.graph.arrays.size, ∃ name d', name = before ++ Naming.fresh (mapped + k) ∧
        addArray v before record ⟨d :: outer, mapped, unnamed⟩ =
        (.ok name, ⟨d' :: outer, if record then mapped + 1 else mapped, unnamed⟩) ∧
        d.graph.arrays.contains name = false ∧ Naming.isIdentifier name = true ∧
        Naming.isReserved name = false ∧
        d'.graph.arrays.get? name = some array ∧ ∀ other, other ≠ name →
        d'.graph.arrays.get? other = d.graph.arrays.get? other) ∧
    ∀ (title : String) (outer : List Draft) (mapped unnamed : Nat) (vs : List Var),
    (vs.map Var.id).Nodup → (∀ v ∈ vs, v.isDropped = false ∧ v.explicitName? = none ∧ ∃ array,
        Descriptor.dense (arrayShape v) v.elem = .ok array) →
      ∃ names b', (vs.mapM fun v => addArray v "" true) ⟨Draft.new title :: outer, mapped,
        unnamed⟩ = (.ok names, b') ∧ names.length = vs.length ∧
        ∀ k < vs.length, names[k]? = some (if Naming.isReserved (Naming.proposed (mapped + k)) then
          Naming.reservedMark ++ Naming.proposed (mapped + k) else Naming.proposed
            (mapped + k)) := by
  refine ⟨fun d outer mapped unnamed v before record array used unmapped unasked marked dense => ?_,
    fun title outer mapped unnamed vs ids each => ?_⟩
  · obtain ⟨k, few, made⟩ := exists_newArray used unmapped unasked marked dense mapped
    have added : Gives (addArray v before record) ⟨d :: outer, mapped, unnamed⟩ _ _ :=
      (gives_addArray fun _ => unmapped).mpr ⟨array, made, rfl⟩
    have found := (Dict.get?_insert d.graph.arrays (before ++ Naming.fresh (mapped + k)) _
      array).trans (if_pos rfl)
    have kept (other : String) (away : other ≠ before ++ Naming.fresh (mapped + k)) :=
      (Dict.get?_insert d.graph.arrays _ other array).trans (if_neg away)
    cases record with
    | false =>
      exact ⟨k, few, _, _, rfl, added, made.free, made.identifier, made.allowed, found, kept⟩
    | true =>
      exact ⟨k, few, _, _, rfl, added, made.free, made.identifier, made.allowed, found, kept⟩
  · have traced : ∀ v ∈ vs, v.kind = .traced := by
      intro v member
      obtain ⟨used, unasked, -⟩ := each v member
      rw [Var.isDropped] at used
      rw [Var.explicitName?] at unasked
      cases kind : v.kind with
      | traced => rfl
      | named name => simp [kind] at unasked
      | dropped => simp [kind] at used
    obtain ⟨d', added⟩ := @Awaits.gives_addArrays _ outer mapped unnamed vs (.new title mapped vs)
      (.traced ids traced)
      (fun v member => (each v member).2.1) fun v member => (each v member).2.2
    refine ⟨_, _, added, by simp, fun k few => ?_⟩
    rw [getElem?_map, getElem?_range few]
    rfl

-- A search that passes over an array called like the next fresh name, and a variable whose turn
-- comes at a reserved name.
theorem addArray_unnamed_passing :
    let scalar (id : Nat) : Var := ⟨id, .traced, [], .int64⟩
    let d := (Draft.new "f").withArray "b" ⟨[1], .int64, [1], .anywhere, true⟩
    (∃ k ≤ 1, ∃ name d', name = Naming.fresh (1 + k) ∧ addArray (scalar 7) "" true ⟨[d], 1, 0⟩ =
      (.ok name, ⟨[d'], 2, 0⟩) ∧
      d.graph.arrays.contains name = false) ∧
    ∃ names b', ((List.range 93).mapM fun id => addArray (scalar id) "" true) ⟨[Draft.new "f"], 0,
      0⟩ = (.ok names, b') ∧
      names[92]? = some "__jace_forbidden_do" := by
  intro scalar d
  constructor
  · obtain ⟨k, few, name, d', named, added, free, -⟩ :=
      addArray_unnamed.1 d [] 1 0 (scalar 7) "" true ⟨[1], .int64, [1], .anywhere, true⟩ rfl rfl rfl
        (by decide) rfl
    exact ⟨k, few, name, d', by rw [named, String.empty_append], added, free⟩
  · have ids : ((List.range 93).map scalar).map Var.id = List.range 93 := by
      simp [scalar, Function.comp_def]
    obtain ⟨names, b', added, -, each⟩ := addArray_unnamed.2 "f" [] 0 0 ((List.range 93).map scalar)
      (by rw [ids]; exact nodup_range)
      fun v member => by
        obtain ⟨id, -, rfl⟩ := mem_map.mp member
        exact ⟨rfl, rfl, _, rfl⟩
    refine ⟨names, b', by rw [← added, mapM_map]; rfl, ?_⟩
    rw [each 92 (by decide), Nat.zero_add]
    decide

end TraceFlow.Builder
