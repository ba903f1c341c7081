import TraceFlow.Proofs.MapAxes

set_option autoImplicit false

namespace TraceFlow

open List

variable {bytes : Array UInt8} {offset : Nat} {t : Tensor}

theorem writeWord_setIfInBounds {start count n i : Nat} {byte : UInt8}
    (outside : i < start ∨ start + count ≤ i) :
    writeWord (bytes.setIfInBounds i byte) start count n =
    (writeWord bytes start count n).setIfInBounds i byte := by
  induction count generalizing bytes start n with
  | zero => rfl
  | succ count ih =>
    rw [writeWord, writeWord, Array.setIfInBounds_comm _ _ (by omega), ih (by omega)]

theorem writeWord_comm {start start' count count' n n' : Nat}
    (apart : start + count ≤ start' ∨ start' + count' ≤ start) :
    writeWord (writeWord bytes start count n) start' count' n' = writeWord
      (writeWord bytes start' count' n') start count n := by
  induction count' generalizing bytes start' n' with
  | zero => rfl
  | succ count' ih => rw [writeWord, writeWord, ← writeWord_setIfInBounds (by omega), ih (by omega)]

theorem Dict.insert_insert {α : Type} (d : Dict α) (key : String) (a b : α) :
    (d.insert key a).insert key b = d.insert key b := by
  have entries (entries : List (String × α)) :
    insertEntry key b (insertEntry key a entries) = insertEntry key b entries := by
    induction entries with
    | nil => simp [insertEntry]
    | cons entry rest ih => grind [insertEntry]
  rw [insert, insert, insert, entries]

namespace Shape

theorem forall₂_of_offsetFrom {total : Nat} {index shape strides : List Nat}
    (found : offsetFrom total index shape strides = .ok (some offset))
    (length : index.length = shape.length) (length' : strides.length = shape.length) :
    List.Forall₂ (· < ·) index shape := by
  induction index generalizing total shape strides with
  | nil =>
    cases length_eq_zero_iff.mp length.symm
    exact .nil
  | cons i index ih =>
    obtain ⟨extent, shape, rfl⟩ := exists_cons_of_length_eq_add_one length.symm
    obtain ⟨stride, strides, rfl⟩ := exists_cons_of_length_eq_add_one length'
    rw [offsetFrom] at found
    split at found
    next below =>
      obtain ⟨step, -, found⟩ := bind_eq_ok.mp found
      obtain ⟨next, -, found⟩ := bind_eq_ok.mp found
      exact .cons below (ih found (Nat.succ.inj length) (Nat.succ.inj length'))
    · cases found

end Shape

namespace Tensor

theorem LaidOutAs.locate {u : Tensor} (same : t.LaidOutAs u) (name : String) (index : List Int) :
    u.locate name index = t.locate name index := by
  simp only [Tensor.locate, offset?, same.shape, same.strides]

theorem set_comm (t : Tensor) {a b : Nat} (apart : a ≠ b) (x y : Datum) :
    (do (← t.set a x).set b y) = (do (← t.set b y).set a x) := by
  have disjoint : a * t.elem.width + t.elem.width ≤ b * t.elem.width ∨
    b * t.elem.width + t.elem.width ≤ a * t.elem.width := by
    rcases Nat.lt_or_gt_of_ne apart with less | more
    · exact .inl (Nat.succ_mul a _ ▸ Nat.mul_le_mul_right _ less)
    · exact .inr (Nat.succ_mul b _ ▸ Nat.mul_le_mul_right _ more)
  simp only [set]
  by_cases first : (a + 1) * t.elem.width ≤ t.bytes.size
  · by_cases second : (b + 1) * t.elem.width ≤ t.bytes.size
    · simp only [first, second, if_true, ok_bind, size_writeWord, writeWord_comm disjoint]
    · simp only [first, second, if_true, if_false, ok_bind, Outcome.error_bind, size_writeWord]
  · by_cases second : (b + 1) * t.elem.width ≤ t.bytes.size
    · simp only [first, second, if_true, if_false, ok_bind, Outcome.error_bind, size_writeWord]
    · simp only [first, second, if_false, Outcome.error_bind]

theorem exists_of_locate (ranked : t.strides.length = t.rank) {name : String} {index : List Int}
    (located : t.locate name index = .ok offset) :
    ∃ natural ∈ Shape.indices t.shape, index = natural.map Nat.cast := by
  rw [locate] at located
  split at located
  next natural =>
    obtain ⟨found, sought, located⟩ := bind_eq_ok.mp located
    cases found with
    | none => cases located
    | some found =>
      rw [offset?, Shape.offset?] at sought
      split at sought
      next length =>
        refine ⟨_, Shape.mem_indices.mpr (Shape.forall₂_of_offsetFrom sought length ranked), ?_⟩
        rw [map_map, map_congr_left (g := id), map_id]
        intro i listed
        exact Int.toNat_of_nonneg (by simpa using all_eq_true.mp natural i listed)
      · cases sought
  · cases located

theorem locate_inj (strides : t.strides = Shape.rowMajor t.shape) {name : String}
    {index index' : List Int}
    (located : t.locate name index = .ok offset) (located' : t.locate name index' = .ok offset) :
    index = index' := by
  have inside {index : List Int} (located : t.locate name index = .ok offset) :
      ∃ natural ∈ Shape.indices t.shape, index = natural.map Nat.cast ∧
      Shape.place natural (Shape.rowMajor t.shape) = offset := by
    obtain ⟨natural, member, rfl⟩ := exists_of_locate (strides ▸ Shape.length_rowMajor t.shape)
      located
    refine ⟨natural, member, rfl, ?_⟩
    rw [locate_index member, strides, Shape.dot_eq] at located
    split at located
    · exact Except.ok.inj located
    · cases located
  obtain ⟨natural, member, rfl, place⟩ := inside located
  obtain ⟨natural', member', rfl, place'⟩ := inside located'
  have single : ((Shape.indices t.shape).map fun index => Shape.place index
    (Shape.rowMajor t.shape)).Nodup := by
    rw [Shape.places_rowMajor]
    exact nodup_range
  rw [inj_on_of_nodup_map single member member' (place.trans place'.symm)]

end Tensor

def MapNode.sources (m : MapNode) : List String :=
  (m.inputs.entries ++ m.dynamic.entries).map fun entry => entry.2.array

def Axis.Admits (axis : Axis) (i : Int) : Prop :=
  axis.low ≤ i ∧ i < axis.high

-- A map that writes what it does not read, at different points to different elements.
structure MapNode.Separates (m : MapNode) : Prop where
  unread : ∀ output ∈ m.outputs.entries, output.2.array ∉ m.sources
  apart : ∀ output ∈ m.outputs.entries,
    ∀ (symbols : Symbols) (point point' index index' : List Int),
    List.Forall₂ Axis.Admits m.axes point → List.Forall₂ Axis.Admits m.axes point' →
    point ≠ point' →
    output.2.elementIndex (Effect.MapBody.bindPoint m.axes point symbols).get? = .ok index →
    output.2.elementIndex (Effect.MapBody.bindPoint m.axes point' symbols).get? = .ok index' →
    index ≠ index'

namespace Effect.MapBody

variable {body : MapBody} {symbols : Symbols} {memory between : Memory} {t u : Tensor}
  {point : List Int} {value : Datum}

theorem kernelAt_congr (same : ∀ entry ∈ body.node.inputs.entries,
    between.get? entry.2.array = memory.get? entry.2.array) (symbols : Symbols) :
    body.kernelAt between symbols = body.kernelAt memory symbols := by
  have scalars (entries : List (String × Access)) (listed : ∀ entry ∈ entries,
    entry ∈ body.node.inputs.entries) (scalars : Dict Datum) :
      readScalars between symbols entries scalars = readScalars memory symbols entries scalars := by
    induction entries generalizing scalars with
    | nil => rfl
    | cons entry rest ih =>
      obtain ⟨here, later⟩ := forall_mem_cons.mp listed
      simp only [readScalars, Access.readElement, Memory.array, same entry here, ih later]
  have windows : body.windowElement between = body.windowElement memory := by
    funext name index
    unfold windowElement
    cases found : Dict.lookup name body.windows with
    | none => rfl
    | some w =>
      obtain ⟨entry, listed, shown⟩ := mem_filterMap.mp (Dict.mem_of_lookup found)
      obtain ⟨_, window, ⟨⟩⟩ := Option.map_eq_some_iff.mp shown
      have array : w.array = entry.2.array := by
        unfold window? at window
        dsimp only at window
        split at window
        · cases window
          rfl
        · cases window
      simp only [Memory.array, array, same entry listed]
  unfold kernelAt scope
  rw [scalars body.elements (fun entry member => (mem_filter.mp member).1), windows]

-- A point whose kernel has a value, and whose element is in the array.
structure Lands (body : MapBody) (symbols : Symbols) (memory : Memory) (t : Tensor)
    (point : List Int) (offset : Nat) (value : Datum) : Prop where
  kernel : body.kernelAt memory (bindPoint body.node.axes point symbols) = .ok value
  located : ∃ index, body.output.elementIndex (bindPoint body.node.axes point symbols).get? =
    .ok index ∧ t.locate body.output.array index = .ok offset
  reaches : t.Reaches offset

theorem exists_lands (found : memory.get? body.output.array = some t)
    (succeeds : (body.runPoint symbols memory point).Succeeds) :
    ∃ offset value, body.Lands symbols memory t point offset value := by
  obtain ⟨done, ran⟩ := succeeds
  rw [runPoint_eq] at ran
  obtain ⟨value, kernel, ran⟩ := bind_eq_ok.mp ran
  obtain ⟨index, placed, ran⟩ := bind_eq_ok.mp ran
  obtain ⟨_, known, ran⟩ := bind_eq_ok.mp ran
  cases found.symm.trans (Memory.array_eq_ok.mp known)
  obtain ⟨offset, located, ran⟩ := bind_eq_ok.mp ran
  obtain ⟨u, written, -⟩ := bind_eq_ok.mp ran
  exact ⟨offset, value, kernel, ⟨index, placed, located⟩, Tensor.succeeds_set.mp ⟨u, written⟩⟩

structure Amid (body : MapBody) (memory : Memory) (t : Tensor) (between : Memory) (u : Tensor) :
    Prop where
  others : ∀ name, name ≠ body.output.array → between.get? name = memory.get? name
  found : between.get? body.output.array = some u
  same : t.LaidOutAs u

theorem Amid.insert (amid : body.Amid memory t between u) {v : Tensor}
    (written : u.set offset value = .ok v) :
    body.Amid memory t (between.insert body.output.array v) v where
  others name other := by rw [Dict.get?_insert, if_neg other, amid.others name other]
  found := by rw [Dict.get?_insert, if_pos rfl]
  same := amid.same.trans (Tensor.laidOutAs_set written)

section

variable (unread : ∀ entry ∈ body.node.inputs.entries, entry.2.array ≠ body.output.array)

include unread

theorem Lands.runPoint (lands : body.Lands symbols memory t point offset value)
    (amid : body.Amid memory t between u) : body.runPoint symbols between point =
    (do return between.insert body.output.array (← u.set offset value)) := by
  obtain ⟨index, placed, located⟩ := lands.located
  rw [runPoint_eq, kernelAt_congr fun entry listed => amid.others _ (unread entry listed),
    lands.kernel, placed]
  simp only [ok_bind, Memory.array_eq_ok.mpr amid.found, amid.same.locate, located]

theorem runPoints_cons_cons {point' : List Int} {offset' : Nat} {value' : Datum}
    (lands : body.Lands symbols memory t point offset value)
    (lands' : body.Lands symbols memory t point' offset' value')
    (amid : body.Amid memory t between u) (rest : List (List Int)) :
    body.runPoints symbols between (point :: point' :: rest) = (do
      let v ← do (← u.set offset value).set offset' value'
      body.runPoints symbols (between.insert body.output.array v) rest) := by
  obtain ⟨v, written⟩ := Tensor.succeeds_set.mpr ((amid.same.reaches _).mpr lands.reaches)
  rw [runPoints, lands.runPoint unread amid, written]
  simp only [ok_bind, Outcome.pure_eq]
  rw [runPoints, lands'.runPoint unread (amid.insert written)]
  simp only [bind_assoc, Outcome.pure_eq, ok_bind, Dict.insert_insert]

variable {offset : List Int → Nat} {value : List Int → Datum} {points order : List (List Int)}

theorem succeeds_runPoints
    (lands : ∀ point ∈ points, body.Lands symbols memory t point (offset point) (value point))
    (amid : body.Amid memory t between u) : (body.runPoints symbols between points).Succeeds := by
  induction points generalizing between u with
  | nil => exact ⟨between, rfl⟩
  | cons point rest ih =>
    obtain ⟨here, later⟩ := forall_mem_cons.mp lands
    obtain ⟨v, written⟩ := Tensor.succeeds_set.mpr ((amid.same.reaches _).mpr here.reaches)
    rw [runPoints, here.runPoint unread amid, written]
    exact ih later (amid.insert written)

theorem runPoints_perm (perm : points.Perm order)
    (lands : ∀ point ∈ points, body.Lands symbols memory t point (offset point) (value point))
    (apart : points.Pairwise fun point point' => offset point ≠ offset point')
    (amid : body.Amid memory t between u) :
    body.runPoints symbols between points = body.runPoints symbols between order := by
  induction perm generalizing between u with
  | nil => rfl
  | cons point _ ih =>
    obtain ⟨here, later⟩ := forall_mem_cons.mp lands
    obtain ⟨v, written⟩ := Tensor.succeeds_set.mpr ((amid.same.reaches _).mpr here.reaches)
    rw [runPoints, runPoints, here.runPoint unread amid, written]
    exact ih later (pairwise_cons.mp apart).2 (amid.insert written)
  | swap point point' rest =>
    obtain ⟨here', later⟩ := forall_mem_cons.mp lands
    obtain ⟨here, -⟩ := forall_mem_cons.mp later
    have both := (pairwise_cons.mp apart).1 point mem_cons_self
    rw [runPoints_cons_cons unread here' here amid, runPoints_cons_cons unread here here' amid,
      ← bind_assoc, ← bind_assoc, u.set_comm both]
  | trans first _ ih ih' =>
    exact (ih lands apart amid).trans
      (ih' (fun point member => lands point (first.mem_iff.mpr member))
        (apart.perm first fun h => h.symm) amid)

end

theorem points_eq_ok {points : List (List Int)} (listed : body.points = .ok points) :
    points = Box.points (body.node.axes.map fun axis => (axis.low, axis.high)) := by
  obtain ⟨bounds, bounded, listed⟩ := bind_eq_ok.mp listed
  obtain ⟨volume, -, listed⟩ := bind_eq_ok.mp listed
  obtain ⟨_, -, listed⟩ := bind_eq_ok.mp listed
  cases listed
  rw [Access.bounds, mapM_eq_ok, forall₂_map_left_iff] at bounded
  have same : List.Forall₂ Eq (body.node.axes.map fun axis => (axis.low, axis.high)) bounds :=
    forall₂_map_left_iff.mpr (bounded.imp fun _ _ => Except.ok.inj)
  rw [forall₂_eq_eq_eq] at same
  rw [same]

end Effect.MapBody

open Effect.MapBody in
theorem MapNode.Separates.reorders {m : MapNode} (separates : m.Separates) {body : Effect.MapBody}
    (prepared : Program.prepare m = .ok body)
    {memory : Memory} (found : memory.get? body.output.array = some t)
    (dense : t.strides = Shape.rowMajor t.shape) {symbols : Symbols}
    {points order : List (List Int)} (listed : body.points = .ok points) (perm : points.Perm order)
    (succeeds : ∀ point ∈ points, (body.runPoint symbols memory point).Succeeds) :
    ∃ done, body.runPoints symbols memory points = .ok done ∧ body.runPoints symbols memory order =
    .ok done := by
  obtain ⟨rfl, -, target, only⟩ := prepare_eq_ok prepared
  have output : (target, body.output) ∈ body.node.outputs.entries := only ▸ mem_singleton_self _
  have unread (entry : String × Access) (known : entry ∈ body.node.inputs.entries) :
    entry.2.array ≠ body.output.array := by
    intro same
    exact separates.unread _ output (same ▸ mem_map_of_mem (mem_append_left _ known))
  have admitted (point : List Int) (member : point ∈ points) :
    List.Forall₂ Axis.Admits body.node.axes point := by
    rw [points_eq_ok listed] at member
    have within := Box.mem_points.mp member
    rwa [forall₂_map_left_iff] at within
  choose! offset value lands using fun point member => exists_lands found (succeeds point member)
  have apart : points.Pairwise fun point point' => offset point ≠ offset point' := by
    have distinct : points.Nodup := points_eq_ok listed ▸ Box.nodup_points _
    refine List.Pairwise.imp_of_mem (fun {point point'} here there differ same => ?_) distinct
    obtain ⟨index, placed, located⟩ := (lands point here).located
    obtain ⟨index', placed', located'⟩ := (lands point' there).located
    exact separates.apart _ output symbols point point' index index' (admitted point here)
      (admitted point' there) differ placed placed'
      (Tensor.locate_inj dense located (same ▸ located'))
  have amid : body.Amid memory t memory t := ⟨fun _ _ => rfl, found, .refl t⟩
  obtain ⟨done, ran⟩ := succeeds_runPoints unread lands amid
  exact ⟨done, ran, runPoints_perm unread perm lands apart amid ▸ ran⟩

end TraceFlow
