import TraceFlow.Proofs.DenseLayout

set_option autoImplicit false

namespace TraceFlow

open List

variable {total count : Nat} {index shape strides : List Nat}

namespace Shape

theorem pairwise_prepend {numbers : List Nat} {points : List (List Nat)}
    (increasing : numbers.Pairwise (· < ·)) (sorted : points.Pairwise (List.Lex (· < ·))) :
    (numbers.flatMap fun i => points.map (i :: ·)).Pairwise (List.Lex (· < ·)) := by
  rw [pairwise_flatMap]
  constructor
  · intro i _
    rw [pairwise_map]
    exact sorted.imp .cons
  · refine increasing.imp fun below index here index' there => ?_
    obtain ⟨_, -, rfl⟩ := mem_map.mp here
    obtain ⟨_, -, rfl⟩ := mem_map.mp there
    exact .rel below

theorem pairwise_indices (shape : List Nat) : (indices shape).Pairwise (List.Lex (· < ·)) := by
  induction shape with
  | nil => exact pairwise_singleton _ _
  | cons extent rest ih =>
    rw [indices_cons]
    exact pairwise_prepend pairwise_lt_range ih

theorem place_le_last (inside : List.Forall₂ (· < ·) index shape) (strides : List Nat) :
    place index strides ≤ place (last shape) strides := by
  induction inside generalizing strides with
  | nil => exact Nat.le_refl _
  | @cons i extent index shape here _ ih =>
    cases strides with
    | nil => exact Nat.le_refl _
    | cons stride strides =>
      exact Nat.add_le_add (Nat.mul_le_mul_right stride (Nat.le_sub_one_of_lt here)) (ih strides)

theorem place_lt_bufferLength {length : Nat} (known : bufferLength shape strides = .ok length)
    (member : index ∈ indices shape) : place index strides < length := by
  have inside := mem_indices.mp member
  have full : 0 ∉ shape := by
    intro empty
    obtain ⟨i, -, below⟩ := Outcome.forall₂_right inside empty
    exact Nat.not_lt_zero i below
  rw [bufferLength_eq, if_neg full, dot_eq] at known
  obtain ⟨_, reached, known⟩ := bind_eq_ok.mp known
  obtain ⟨-, rfl⟩ := ite_eq_ok.mp reached
  obtain ⟨-, rfl⟩ := ite_eq_ok.mp known
  exact Nat.lt_one_add_iff.mpr (place_le_last inside strides)

theorem offsetFrom_outside (outside : ¬ List.Forall₂ (· < ·) index shape)
    (length : index.length = shape.length) (strided : shape.length ≤ strides.length)
    (fits : total + place (last shape) strides < sizeBound) :
    offsetFrom total index shape strides = .ok none := by
  induction shape generalizing index strides total with
  | nil =>
    cases length_eq_zero_iff.mp length
    exact absurd .nil outside
  | cons extent shape ih =>
    obtain ⟨i, index, rfl⟩ := exists_cons_of_length_eq_add_one length
    obtain ⟨stride, strides, rfl⟩ :=
      exists_cons_of_length_pos (Nat.lt_of_lt_of_le (Nat.succ_pos _) strided)
    rw [offsetFrom]
    split
    next here =>
      have step := Nat.mul_le_mul_right stride (Nat.le_sub_one_of_lt here)
      change total + ((extent - 1) * stride + place (last shape) strides) < sizeBound at fits
      rw [checkSize_eq_ok (by omega), ok_bind, checkSize_eq_ok (by omega), ok_bind]
      exact ih (fun later => outside (.cons here later)) (Nat.succ.inj length)
        (Nat.le_of_succ_le_succ strided) (by omega)
    · rfl

theorem offsetFrom_cast (total : Nat) (index shape strides : List Nat) : Descriptor.offsetFrom total
      (index.map Nat.cast) shape strides = offsetFrom total index shape strides := by
  induction index generalizing total shape strides with
  | nil => rfl
  | cons i index ih =>
    cases shape with
    | nil => rfl
    | cons extent shape =>
      cases strides with
      | nil => rfl
      | cons stride strides =>
        have inside : (0 ≤ (i : Int) ∧ (i : Int) < extent) ↔ i < extent := by omega
        simp only [map_cons, Descriptor.offsetFrom, offsetFrom, inside, Int.toNat_natCast, ih]

end Shape

namespace Tensor

variable {t u : Tensor}

inductive Built : Tensor → Prop
  | zeros {elem : ElemType} {shape : List Nat} {t : Tensor} : Tensor.zeros elem shape = .ok t →
    Built t
  | ofDescriptor {d : Descriptor} {t : Tensor} : Tensor.ofDescriptor d = .ok t → Built t
  | ofValues {elem : ElemType} {shape : List Nat} {values : List Datum} {t : Tensor} :
    Tensor.ofValues elem shape values = .ok t → Built t
  | ofScalar {s : Scalar} {t : Tensor} : Tensor.ofScalar s = .ok t → Built t
  | set {offset : Nat} {d : Datum} {t u : Tensor} : Built t → t.set offset d = .ok u → Built u
  | relayout {strides : List Nat} {t u : Tensor} : Built t → t.relayout strides = .ok u → Built u
  | reshape {shape : List Nat} {t u : Tensor} : Built t → t.reshape shape = .ok u → Built u
  | withStorage {t : Tensor} (storage : Storage) : Built t → Built (t.withStorage storage)

theorem sound_zeros {elem : ElemType} (made : Tensor.zeros elem shape = .ok t) : t.Sound := by
  obtain ⟨count, counted, -, few, rfl⟩ := zeros_eq_ok.mp made
  refine ⟨(Array.size_replicate ..).symm ▸ few, fun index member => ?_⟩
  rw [Reaches, Array.size_replicate, eq_prod_of_sizeProduct counted]
  exact Nat.mul_le_mul_right _ (Shape.place_lt member)

theorem sound_ofDescriptor {d : Descriptor} (made : Tensor.ofDescriptor d = .ok t) : t.Sound := by
  obtain ⟨length, known, few, rfl⟩ := ofDescriptor_eq_ok.mp made
  refine ⟨(Array.size_replicate ..).symm ▸ few, fun index member => ?_⟩
  rw [Reaches, Array.size_replicate]
  exact Nat.mul_le_mul_right _ (Shape.place_lt_bufferLength known member)

theorem exists_ofValues {elem : ElemType} {values : List Datum}
    (counted : sizeProduct shape = .ok values.length)
    (strides : (Shape.denseStrides shape).Succeeds)
    (listed : values.length * 8 < indexBound) : ∃ t, Tensor.ofValues elem shape values = .ok t ∧
    t.values = .ok (values.map elem.recode) := by
  have narrow : elem.width ≤ 8 := by cases elem <;> decide
  have blank := zeros_eq_ok.mpr ⟨_, counted, strides,
    (Nat.mul_le_mul_left values.length narrow).trans_lt listed, rfl⟩
  have places := Shape.places_rowMajor shape
  rw [← eq_prod_of_sizeProduct counted] at places
  obtain ⟨t, stored, -, holds⟩ :=
    (sound_zeros blank).assign counted listed rfl (places ▸ nodup_range)
  rw [places] at stored
  exact ⟨t, ofValues_eq_ok.mpr ⟨counted, _, blank, stored⟩, holds⟩

theorem relayout_eq_ok : t.relayout strides = .ok u ↔ strides.length = t.rank ∧
    (Shape.denseStrides t.shape).Succeeds ∧ ∃ target targets values,
    Tensor.ofDescriptor ⟨t.shape, t.elem, strides, t.storage, true⟩ = .ok target ∧
    target.offsets = .ok targets ∧ t.values = .ok values ∧
      target.store (targets.zip values) = .ok u := by
  simp only [Tensor.relayout, Descriptor.dense, unless_eq_ok, not_not, bind_eq_ok, bind_assoc,
    pure_bind, exists_and_left, Outcome.Succeeds, exists_and_right]

-- What holds of blank arrays and survives a write holds of every array.
theorem Built.closed {P : Tensor → Prop}
    (zeros : ∀ {elem shape t}, Tensor.zeros elem shape = .ok t → P t)
    (ofDescriptor : ∀ {d t}, Tensor.ofDescriptor d = .ok t → P t)
    (set : ∀ {t u offset d}, P t → t.set offset d = .ok u → P u)
    (withStorage : ∀ {t} storage, P t → P (t.withStorage storage)) (built : t.Built) : P t := by
  have store {t u : Tensor} {pairs : List (Nat × Datum)} (holds : P t)
    (stored : t.store pairs = .ok u) : P u := by
    induction pairs generalizing t with
    | nil => exact Except.ok.inj stored ▸ holds
    | cons pair rest ih =>
      obtain ⟨next, first, others⟩ := bind_eq_ok.mp stored
      exact ih (set holds first) others
  have ofValues {elem : ElemType} {shape : List Nat} {values : List Datum} {t : Tensor}
    (made : Tensor.ofValues elem shape values = .ok t) : P t := by
    obtain ⟨-, blank, blanked, stored⟩ := ofValues_eq_ok.mp made
    exact store (zeros blanked) stored
  induction built with
  | zeros made => exact zeros made
  | ofDescriptor made => exact ofDescriptor made
  | ofValues made => exact ofValues made
  | ofScalar made =>
    obtain ⟨blank, blanked, written⟩ := bind_eq_ok.mp made
    exact set (zeros blanked) written
  | set _ written holds => exact set holds written
  | relayout _ made _ =>
    obtain ⟨-, -, target, targets, values, blank, -, -, stored⟩ := relayout_eq_ok.mp made
    exact store (ofDescriptor blank) stored
  | reshape _ made _ =>
    obtain ⟨values, v, -, stored, rfl⟩ := reshape_eq_ok.mp made
    exact withStorage _ (ofValues stored)
  | withStorage storage _ holds => exact withStorage storage holds

theorem Built.sound (built : t.Built) : t.Sound :=
  built.closed sound_zeros sound_ofDescriptor (fun sound written => sound.laidOutAs
    (laidOutAs_set written)) fun _ sound => ⟨sound.small, sound.reaches⟩

theorem Sound.offset? (sound : t.Sound) (member : index ∈ Shape.indices t.shape) :
    t.offset? index = .ok (some (Shape.place index t.strides)) := by
  rw [Tensor.offset?, Shape.offset?_eq member, sound.dot member]
  rfl

theorem Reaches.lt_bufferCount {offset : Nat} (reaches : t.Reaches offset) :
    offset < t.bufferCount :=
  (Nat.le_div_iff_mul_le t.elem.width_pos).mpr reaches

theorem Built.addressing (built : t.Built) (strided : t.shape.length ≤ t.strides.length)
    (counted : t.count = .ok count) (listed : count * 8 < indexBound)
    (fits : 0 ∈ t.shape → Shape.place (Shape.last t.shape) t.strides < sizeBound) :
    (∀ index, List.Forall₂ (· < ·) index t.shape → ∃ offset < t.bufferCount,
      t.offset? index = .ok (some offset)) ∧
    (∀ index, ¬ List.Forall₂ (· < ·) index t.shape → t.offset? index = .ok none) ∧
    (∃ offsets, t.offsets = .ok offsets ∧
      List.Forall₂ (fun index offset => t.offset? index = .ok (some offset))
        (Shape.indices t.shape) offsets) ∧
    (∀ index, index ∈ Shape.indices t.shape ↔ List.Forall₂ (· < ·) index t.shape) ∧
    (Shape.indices t.shape).Pairwise (List.Lex (· < ·)) ∧
    (∃ values, t.values = .ok values ∧ values.length = count) ∧
    ((Shape.denseStrides t.shape).Succeeds →
      ∃ d, t.descriptor = .ok d ∧ ∀ index : List Nat, d.offset?
        (index.map Nat.cast) = t.offset? index) := by
  have sound := built.sound
  have located (index : List Nat) (inside : List.Forall₂ (· < ·) index t.shape) :=
    sound.offset? (Shape.mem_indices.mpr inside)
  refine ⟨fun index inside => ?_, fun index outside => ?_, ⟨_, sound.offsets counted listed, ?_⟩,
    fun _ => Shape.mem_indices, Shape.pairwise_indices _,
    ⟨_, sound.values counted listed, by rw [length_map, length_indices counted]⟩,
    fun ⟨strides, sizes⟩ => ?_⟩
  · exact ⟨_, (sound.reaches index (Shape.mem_indices.mpr inside)).lt_bufferCount,
      located index inside⟩
  · rw [Tensor.offset?, Shape.offset?]
    split
    next length =>
      refine Shape.offsetFrom_outside outside length strided (Nat.zero_add _ ▸ ?_)
      by_cases empty : 0 ∈ t.shape
      · exact fits empty
      · -- The last multi-index is one of an array without empty dimensions.
        have member : Shape.last t.shape ∈ Shape.indices t.shape := by
          rw [Shape.mem_indices, Shape.last, forall₂_map_left_iff, forall₂_same]
          intro extent listed
          exact Nat.sub_lt (Nat.pos_of_ne_zero fun none => empty (none ▸ listed)) Nat.one_pos
        have dot := sound.dot member
        rw [Shape.dot_eq] at dot
        split at dot
        next small => exact small
        · cases dot
    · rfl
  · rw [forall₂_map_right_iff, forall₂_same]
    exact fun index member => sound.offset? member
  · refine ⟨⟨t.shape, t.elem, t.strides, t.storage, false⟩, ?_, fun index => ?_⟩
    · rw [Tensor.descriptor, Descriptor.dense, sizes]
      rfl
    rw [Descriptor.offset?, Tensor.offset?, Shape.offset?, length_map]
    exact if_congr Iff.rfl (Shape.offsetFrom_cast ..) rfl

-- Columns with a gap behind each.
theorem Built.addressing_padded :
    ∃ t, Tensor.ofDescriptor ⟨[2, 3], .int16, [1, 4], .anywhere, true⟩ = .ok t ∧
    (∃ offset < t.bufferCount, t.offset? [1, 2] = .ok (some offset)) ∧ t.offset? [2, 0] = .ok none ∧
    (∃ values, t.values = .ok values ∧ values.length = 6) ∧
    ∃ d, t.descriptor = .ok d ∧ ∀ index : List Nat, d.offset?
      (index.map Nat.cast) = t.offset? index := by
  have made : Tensor.ofDescriptor ⟨[2, 3], .int16, [1, 4], .anywhere, true⟩ = .ok ⟨.int16, [2, 3],
    [1, 4], .cpuHeap, Array.replicate 20 0⟩ := rfl
  obtain ⟨inside, outside, -, -, -, values, described⟩ :=
    Built.addressing (.ofDescriptor made) (by decide) rfl (by decide) (by decide)
  exact ⟨_, made, inside [1, 2] (by simp), outside [2, 0] (by simp), values, described ⟨_, rfl⟩⟩

-- An array without elements whose extents can not be multiplied, one whose offsets are no words,
-- one that lacks a stride, and one whose descriptor does not come about.
theorem addressing_without_room :
    (∃ t, Tensor.ofDescriptor ⟨[2 ^ 33, 2 ^ 33, 0], .int64, [2 ^ 33, 1, 1], .anywhere, true⟩ =
      .ok t ∧ t.values = .error (.fault .overflow)) ∧
    (∃ t, Tensor.ofDescriptor ⟨[6, 0], .int64, [2 ^ 63, 1], .anywhere, true⟩ = .ok t ∧
      t.offset? [5, 0] = .error (.fault .overflow)) ∧
    (∃ t, Tensor.ofDescriptor ⟨[2], .int64, [], .anywhere, true⟩ = .ok t ∧
      t.offset? [5] = .ok (some 0)) ∧
    ∃ t, Tensor.ofDescriptor ⟨[0, 2 ^ 33, 2 ^ 33], .int64, [1, 1, 1], .anywhere, true⟩ = .ok t ∧
    t.values = .ok [] ∧ t.descriptor = .error (.fault .overflow) :=
  ⟨⟨_, rfl, rfl⟩, ⟨_, rfl, rfl⟩, ⟨_, rfl, rfl⟩, ⟨_, rfl, rfl, rfl⟩⟩

end Tensor

end TraceFlow
