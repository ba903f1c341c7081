import TraceFlow.Proofs.Relayouts
import TraceFlow.Proofs.SafeOutcomes

set_option autoImplicit false

namespace TraceFlow

open List

variable {lookup : String → Option Int} {access : Access} {volume : Nat} {shape : List Nat}

namespace Subscript

def Names (lookup : String → Option Int) : Subscript → Nat → Prop
  | .at index, i => index.eval lookup = .ok (some i)
  | .range low high, i => low ≤ i ∧ i < high

-- The subscript stays within a dimension, and the end of what it stands for is an index.
def Inside (lookup : String → Option Int) : Subscript → Nat → Prop
  | .at index, extent =>
    ∃ i : Nat, index.eval lookup = .ok (some i) ∧ i < extent ∧ i + 1 < indexBound
  | .range low high, extent => 0 ≤ low ∧ high ≤ extent

-- A range and the numbers in it, which are those that the subscript stands for.
structure Spans (part : Subscript) (lookup : String → Option Int) (extent : Nat) (bound : Int × Int)
    (numbers : List Nat) : Prop where
  run : Box.run bound.1 bound.2 = numbers.map Nat.cast
  increasing : numbers.Pairwise (· < ·)
  names : ∀ i, part.Names lookup i ↔ i ∈ numbers
  below : ∀ i ∈ numbers, i < extent

theorem Spans.index {index : Index} {i extent : Nat} (known : index.eval lookup = .ok (some i))
    (inside : i < extent) : (Subscript.at index).Spans lookup extent (i, i + 1) [i] where
  run := by simp [Box.run]
  increasing := pairwise_singleton _ _
  names j := by
    rw [Names, known, mem_singleton, Except.ok.injEq, Option.some.injEq, Int.natCast_inj]
    exact eq_comm
  below := by simpa using inside

theorem Spans.range {low high : Int} {extent : Nat} (least : 0 ≤ low) (most : high ≤ extent) :
    (Subscript.range low high).Spans lookup extent (low, high)
      (List.range' low.toNat (high - low).toNat) where
  run := by
    obtain ⟨low, rfl⟩ := Int.eq_ofNat_of_zero_le least
    simp [Box.run, range'_eq_map_range, Function.comp_def]
  increasing := pairwise_lt_range'
  names i := by
    rw [Names, mem_range'_1]
    omega
  below i member := by
    rw [mem_range'_1] at member
    omega

end Subscript

namespace Access

-- The multi-indices of an access in row-major order.
structure Lists (access : Access) (lookup : String → Option Int) (points : List (List Nat)) :
    Prop where
  sorted : points.Pairwise (List.Lex (· < ·))
  members : ∀ index, index ∈ points ↔ List.Forall₂ (Subscript.Names lookup) access.subset index

theorem exists_box {bound : Subscript → Outcome (Int × Int)}
    (spans : ∀ part extent, part.Inside lookup extent → ∃ range numbers, bound part = .ok range ∧
      part.Spans lookup extent range numbers)
    (inside : List.Forall₂ (Subscript.Inside lookup) access.subset shape) :
    ∃ box points, access.subset.mapM bound = .ok box ∧ Box.points box = points.map
      (·.map Nat.cast) ∧ access.Lists lookup points ∧
      ∀ index ∈ points, index ∈ Shape.indices shape := by
  obtain ⟨array, subset⟩ := access
  dsimp only at inside ⊢
  induction inside with
  | nil =>
    refine ⟨[], [[]], rfl, rfl, ⟨pairwise_singleton _ _, fun index => ?_⟩, fun index member => ?_⟩
    · rw [mem_singleton, forall₂_nil_left_iff]
    · rw [mem_singleton.mp member, Shape.mem_indices]
      exact .nil
  | @cons part extent parts shape here _ ih =>
    obtain ⟨box, points, known, listed, lists, within⟩ := ih
    obtain ⟨range, numbers, first, spans⟩ := spans part extent here
    refine ⟨range :: box, numbers.flatMap fun i => points.map (i :: ·), ?_, ?_,
      ⟨Shape.pairwise_prepend spans.increasing lists.sorted, fun index => ?_⟩, ?_⟩
    · rw [mapM_cons, first, ok_bind, known, ok_bind]
      rfl
    · simp [Box.points_cons, spans.run, listed, map_flatMap, flatMap_map, Function.comp_def]
    · simp only [mem_flatMap, mem_map, ← spans.names, lists.members, forall₂_cons_left_iff]
      grind
    · intro index member
      obtain ⟨i, chosen, member⟩ := mem_flatMap.mp member
      obtain ⟨rest, later, rfl⟩ := mem_map.mp member
      exact Shape.mem_indices.mpr
        (.cons (spans.below i chosen) (Shape.mem_indices.mp (within rest later)))

theorem exists_points (inside : List.Forall₂ (Subscript.Inside lookup) access.subset shape)
    (measured : access.volume = .ok volume) (room : volume * 24 < indexBound) :
    ∃ points, access.points lookup = .ok (points.map (·.map Nat.cast)) ∧
    access.Lists lookup points ∧ points.length = volume ∧
      ∀ index ∈ points, index ∈ Shape.indices shape := by
  obtain ⟨box, points, known, listed, lists, within⟩ :
    ∃ box points, access.bounds lookup = .ok box ∧ _ := by
    refine exists_box (fun part extent inside => ?_) inside
    rcases part with index | ⟨low, high⟩
    · obtain ⟨i, known, below, small⟩ := inside
      refine ⟨(i, i + 1), [i], ?_, .index known below⟩
      have checked : checkIndex ((i : Int) + 1) = .ok (i + 1) :=
        checkIndex_eq_ok (by omega) (by omega)
      dsimp only
      rw [known, ok_bind]
      dsimp only
      rw [checked]
      rfl
    · exact ⟨_, _, rfl, .range inside.1 inside.2⟩
  have found : access.points lookup = .ok (points.map (·.map Nat.cast)) := by
    rw [Access.points, known, ok_bind, measured, ok_bind, checkCapacity, if_pos room, ok_bind,
      listed]
    rfl
  have length := measured.symm.trans (volume_of_points found)
  rw [length_map] at length
  exact ⟨points, found, lists, (Except.ok.inj length).symm, within⟩

end Access

namespace Effect

variable {source target : Access} {memory : Memory} {symbols : Symbols} {t u : Tensor}

theorem exists_copied {reads writes : List (List Nat)}
    (listed : source.points symbols.get? = .ok (reads.map (·.map Nat.cast)))
    (listed' : target.points symbols.get? = .ok (writes.map (·.map Nat.cast)))
    (lengths : reads.length = writes.length)
    (sound : t.Sound) (sound' : u.Sound) (within : ∀ index ∈ reads, index ∈ Shape.indices t.shape)
    (within' : ∀ index ∈ writes, index ∈ Shape.indices u.shape) :
    ∃ v, copied source target symbols t u = .ok v ∧
      u.store ((writes.map fun index => Shape.place index u.strides).zip
        (reads.map fun index => t.datum (Shape.place index t.strides))) = .ok v := by
  obtain ⟨v, stored⟩ := @Tensor.succeeds_store u
    ((writes.map fun index => Shape.place index u.strides).zip
      (reads.map fun index => t.datum (Shape.place index t.strides))) (by
      intro pair member
      obtain ⟨index, chosen, same⟩ := mem_map.mp (of_mem_zip member).1
      exact same ▸ sound'.reaches index (within' index chosen))
  have read : (reads.map (·.map Nat.cast)).mapM
    (fun index => do t.get (← t.locate source.array index)) =
      .ok (reads.map fun index => t.datum (Shape.place index t.strides)) := by
    rw [mapM_map, mapM_eq_ok, forall₂_map_right_iff, forall₂_same]
    intro index chosen
    rw [Function.comp_apply, sound.locate (within index chosen), ok_bind]
    exact (sound.reaches index (within index chosen)).get
  have located : writes.mapM (fun index => Shape.dot index u.strides) = .ok (writes.map fun index =>
    Shape.place index u.strides) := by
    rw [mapM_eq_ok, forall₂_map_right_iff, forall₂_same]
    exact fun index chosen => sound'.dot (within' index chosen)
  refine ⟨v, ?_, stored⟩
  rw [copied, listed, ok_bind, listed', ok_bind, if_neg (by simpa using lengths), read, ok_bind,
    Tensor.writeAll_indices within' (by simpa using lengths)]
  exact ⟨_, located, stored⟩

theorem copy_subsets (known : memory.get? source.array = some t)
    (known' : memory.get? target.array = some u) (built : t.Built) (built' : u.Built)
    (inside : List.Forall₂ (Subscript.Inside symbols.get?) source.subset t.shape)
    (inside' : List.Forall₂ (Subscript.Inside symbols.get?) target.subset u.shape)
    (measured : source.volume = .ok volume) (measured' : target.volume = .ok volume)
    (room : volume * 24 < indexBound)
    (whole : u.elem.isFloat = false) (separates : Shape.Separates u.shape u.strides) :
    ∃ reads writes after v, source.Lists symbols.get? reads ∧ target.Lists symbols.get? writes ∧
    reads.length = volume ∧ writes.length = volume ∧
      copy source target memory symbols = .ok after ∧ after.get? target.array = some v ∧
      u.LaidOutAs v ∧ (∀ (k : Nat) read write, reads[k]? = some read → writes[k]? = some write →
        ∃ d, t.get (Shape.place read t.strides) = .ok d ∧ v.get (Shape.place write u.strides) = .ok
          (d.cast u.elem)) ∧
      (∀ index ∈ Shape.indices u.shape, index ∉ writes → v.get (Shape.place index u.strides) =
        u.get (Shape.place index u.strides)) ∧
      ∀ name, name ≠ target.array → after.get? name = memory.get? name := by
  obtain ⟨reads, listed, lists, length, within⟩ := Access.exists_points inside measured room
  obtain ⟨writes, listed', lists', length', within'⟩ := Access.exists_points inside' measured' room
  have lengths := length.trans length'.symm
  obtain ⟨v, made, stored⟩ := exists_copied listed listed' lengths built.sound built'.sound within
    within'
  have places : ((writes.map fun index => Shape.place index u.strides).zip
    (reads.map fun index => t.datum (Shape.place index t.strides))).map Prod.fst =
      writes.map fun index => Shape.place index u.strides := map_fst_zip (by simp [lengths])
  have distinct : (writes.map fun index => Shape.place index u.strides).Nodup := by
    refine List.Nodup.map_on (fun index chosen other chosen' => separates index
      (within' index chosen) other (within' other chosen')) ?_
    exact lists'.sorted.imp fun {index other} before (same : index = other) => Std.Irrefl.irrefl
      other (same ▸ before)
  refine ⟨reads, writes, _, v, lists, lists', length, length',
    copy_eq_ok.mpr ⟨t, u, v, known, known', made, rfl⟩, ?_, Tensor.laidOutAs_store stored,
    fun k read write first second => ?_, fun index member other => ?_, fun name different => ?_⟩
  · rw [Dict.get?_insert, if_pos rfl]
  · refine ⟨_, (built.sound.reaches read (within read (mem_of_getElem? first))).get, ?_⟩
    rw [← ElemType.recode_eq_cast whole]
    refine Tensor.get_store stored (by rwa [places]) (mem_of_getElem? (i := k) ?_)
    simp [getElem?_zip_eq_some, first, second]
  · refine Tensor.get_store_other stored ?_
    rw [places]
    intro found
    obtain ⟨write, chosen, same⟩ := mem_map.mp found
    exact other (separates write (within' write chosen) index member same ▸ chosen)
  · rw [Dict.get?_insert, if_neg different]

-- An array shifted by one place within itself, which leaves its first element.
theorem copy_subsets_overlapping : ∃ a after v, Tensor.ofValues .int64 [4]
    ([1, 2, 3, 4].map (.int ·)) = .ok a ∧
    copy ⟨"a", [.range 0 3]⟩ ⟨"a", [.range 1 4]⟩ (Dict.empty.insert "a" a) Dict.empty = .ok after ∧
    after.get? "a" = some v ∧ v.get 0 = a.get 0 := by
  obtain ⟨a, made, -⟩ := @Tensor.exists_ofValues [4] .int64 ([1, 2, 3, 4].map (.int ·)) rfl ⟨_, rfl⟩
    (by decide)
  obtain ⟨elem, shape, strides, -⟩ := Tensor.ofValues_laidOut made
  have known : (Dict.empty.insert "a" a : Memory).get? "a" = some a := by
    rw [Dict.get?_insert, if_pos rfl]
  obtain ⟨_, writes, after, v, -, lists, -, -, ran, held, -, -, others, -⟩ :=
    @copy_subsets 3 ⟨"a", [.range 0 3]⟩ ⟨"a", [.range 1 4]⟩ _ Dict.empty a a known known
      (.ofValues made) (.ofValues made)
      (by rw [shape]; exact .cons ⟨by decide, by decide⟩ .nil)
        (by rw [shape]; exact .cons ⟨by decide, by decide⟩ .nil) rfl rfl (by decide)
      (by rw [elem]; rfl) (by rw [shape, strides]; decide)
  rw [shape, strides] at others
  refine ⟨a, after, v, made, ran, held, others [0] (by decide) fun written => ?_⟩
  obtain _ | ⟨⟨least, -⟩, -⟩ := (lists.members [0]).mp written
  exact absurd least (by decide)

-- Nothing is to be copied, but the extents can not be multiplied.
theorem copy_subsets_without_room :
    ∃ t, Tensor.ofDescriptor ⟨[2 ^ 33, 2 ^ 33, 0], .int64, [2 ^ 33, 1, 1], .anywhere, true⟩ =
    .ok t ∧ copy ⟨"a", [.range 0 (2 ^ 33), .range 0 (2 ^ 33), .range 0 0]⟩
      ⟨"b", [.range 0 (2 ^ 33), .range 0 (2 ^ 33), .range 0 0]⟩
      ((Dict.empty.insert "a" t).insert "b" t) Dict.empty = .error (.fault .overflow) :=
  ⟨_, rfl, rfl⟩

end Effect

end TraceFlow
