import TraceFlow.Proofs.StridedArrays

set_option autoImplicit false

namespace TraceFlow

open List

def Shape.Separates (shape strides : List Nat) : Prop :=
  ∀ index ∈ indices shape, ∀ other ∈ indices shape, place index strides = place other strides →
    index = other

instance (shape strides : List Nat) : Decidable (Shape.Separates shape strides) :=
  inferInstanceAs (Decidable (∀ index ∈ Shape.indices shape, ∀ other ∈ Shape.indices shape, _))

-- There is room for a buffer that the strides spread the shape over.
structure Shape.Spreads (elem : ElemType) (shape strides : List Nat) : Prop where
  ranked : strides.length = shape.length
  room : ∃ length, bufferLength shape strides = .ok length ∧ length * elem.width < indexBound

theorem exists_last {α : Type} {p : α → Prop} {xs : List α} {x : α} (member : x ∈ xs)
    (holds : p x) :
    ∃ before last after, xs = before ++ last :: after ∧ p last ∧ ∀ y ∈ after, ¬ p y := by
  induction xs generalizing x with
  | nil => cases member
  | cons y ys ih =>
    by_cases later : ∃ z ∈ ys, p z
    · obtain ⟨z, listed, found⟩ := later
      obtain ⟨before, last, after, rfl, rest⟩ := ih listed found
      exact ⟨y :: before, last, after, rfl, rest⟩
    · have none : ∀ z ∈ ys, ¬ p z := fun z listed found => later ⟨z, listed, found⟩
      obtain rfl := (mem_cons.mp member).resolve_right fun listed => none x listed holds
      exact ⟨[], x, ys, rfl, holds, none⟩

namespace Tensor

variable {a : Tensor} {data : List Datum} {strides : List Nat}

def KeepsLast (a r : Tensor) (strides : List Nat) : Prop :=
  ∀ index ∈ Shape.indices a.shape, ∃ last ∈ Shape.indices a.shape,
    Shape.place last strides = Shape.place index strides ∧
    (∀ other ∈ Shape.indices a.shape, Shape.place other strides = Shape.place index strides →
      other = last ∨ List.Lex (· < ·) other last) ∧
    ∃ d, r.get (Shape.place index strides) = .ok d ∧ a.get (Shape.place last a.strides) = .ok d

theorem relayout_keepsLast (sound : a.Sound) (dense : (Shape.denseStrides a.shape).Succeeds)
    (whole : a.elem.isFloat = false) (known : a.values = .ok data)
    (spreads : Shape.Spreads a.elem a.shape strides) :
    ∃ r, a.relayout strides = .ok r ∧ r.elem = a.elem ∧ r.shape = a.shape ∧ r.strides = strides ∧
    r.Sound ∧ KeepsLast a r strides := by
  obtain ⟨counted, listed⟩ := count_of_values known
  obtain ⟨length, long, few⟩ := spreads.room
  have blank := (@ofDescriptor_eq_ok ⟨a.shape, a.elem, strides, a.storage, true⟩ _).mpr ⟨length,
    long, few, rfl⟩
  have sound' := sound_ofDescriptor blank
  have elements := known.symm.trans (sound.values counted listed)
  obtain rfl := Except.ok.inj elements
  obtain ⟨r, stored⟩ := @succeeds_store _
    (((Shape.indices a.shape).map fun index => Shape.place index strides).zip
      ((Shape.indices a.shape).map fun index => a.datum (Shape.place index a.strides))) (by
    intro pair member
    obtain ⟨index, inside, same⟩ := mem_map.mp (of_mem_zip member).1
    exact same ▸ sound'.reaches index inside)
  have same := laidOutAs_store stored
  refine ⟨r, relayout_eq_ok.mpr ⟨spreads.ranked, dense, _, _, _, blank,
    sound'.offsets counted listed, known, stored⟩, same.elem, same.shape, same.strides,
    sound'.laidOutAs same, fun index member => ?_⟩
  obtain ⟨before, last, after, split, shares, none⟩ :=
    @exists_last _ (fun other => Shape.place other strides = Shape.place index strides) _ _ member
      rfl
  have inside : last ∈ Shape.indices a.shape := split ▸ mem_append_right before mem_cons_self
  refine ⟨last, inside, shares, fun other listed alike => ?_, a.datum (Shape.place last a.strides),
    ?_, (sound.reaches last inside).get⟩
  · have sorted := Shape.pairwise_indices a.shape
    rw [split] at listed sorted
    rcases mem_append.mp listed with earlier | later
    · exact .inr ((pairwise_append.mp sorted).2.2 other earlier last mem_cons_self)
    · rcases mem_cons.mp later with rfl | behind
      · exact .inl rfl
      · exact absurd alike (none other behind)
  · rw [zip_map', split, map_append, map_cons] at stored
    rw [← shares, get_store_last stored
      (by
        rw [map_map]
        rintro found
        obtain ⟨other, behind, alike⟩ := mem_map.mp found
        exact none other behind (alike.trans shares))]
    exact congrArg _ (a.elem.readsBack whole _ (wordAt_lt _ _ _))

theorem KeepsLast.values {r : Tensor} (keeps : KeepsLast a r strides) (sound : a.Sound)
    (sound' : r.Sound) (known : a.values = .ok data)
    (shape : r.shape = a.shape) (strided : r.strides = strides)
    (separates : Shape.Separates a.shape strides) : r.values = .ok data := by
  obtain ⟨counted, listed⟩ := count_of_values known
  rw [← known, sound.values counted listed, sound'.values (by rw [count, shape]; exact counted)
    listed, shape, strided]
  refine congrArg _ (map_congr_left fun index member => ?_)
  obtain ⟨last, inside, shares, -, d, new, old⟩ := keeps index member
  obtain rfl := separates last inside index member shares
  rw [datum, (get_eq_ok.mp new).2, datum, (get_eq_ok.mp old).2]

theorem Built.rearranged (built : a.Built) (whole : a.elem.isFloat = false)
    (known : a.values = .ok data) :
    ((Shape.denseStrides a.shape).Succeeds → ∀ strides, Shape.Spreads a.elem a.shape strides → ∃ r,
      a.relayout strides = .ok r ∧ r.elem = a.elem ∧ r.shape = a.shape ∧ r.strides = strides ∧
      KeepsLast a r strides ∧ (Shape.Separates a.shape strides → r.values = .ok data ∧
        ∀ strides', Shape.Spreads a.elem a.shape strides' → Shape.Separates a.shape strides' →
          ∃ r', r.relayout strides' = .ok r' ∧ r'.values = .ok data)) ∧
    ∀ shape, sizeProduct shape = .ok data.length → (Shape.denseStrides shape).Succeeds →
      ∃ r, a.reshape shape = .ok r ∧ r.elem = a.elem ∧ r.shape = shape ∧
      r.strides = Shape.rowMajor shape ∧ r.storage = a.storage ∧ r.values = .ok data ∧
        ∀ shape', sizeProduct shape' = .ok data.length → r.reshape shape' = a.reshape shape' := by
  have sound := built.sound
  refine ⟨fun dense strides spreads => ?_, fun shape counted dense => ?_⟩
  · obtain ⟨r, made, elem, shape, strided, sound', keeps⟩ :=
      relayout_keepsLast sound dense whole known spreads
    refine ⟨r, made, elem, shape, strided, keeps, fun separates => ?_⟩
    have held := keeps.values sound sound' known shape strided separates
    refine ⟨held, fun strides' spreads' separates' => ?_⟩
    rw [← elem, ← shape] at spreads'
    rw [← shape] at separates' dense
    obtain ⟨r', made', -, shape', strided', sound'', keeps'⟩ :=
      relayout_keepsLast sound' dense (elem ▸ whole) held spreads'
    exact ⟨r', made', keeps'.values sound' sound'' held shape' strided' separates'⟩
  · obtain ⟨counted', listed⟩ := count_of_values known
    obtain ⟨v, made, held⟩ := exists_ofValues counted dense listed
    obtain ⟨elem, shaped, strided, -⟩ := ofValues_laidOut made
    rw [map_recode_values (a.elem.readsBack whole) known] at held
    have held' : (v.withStorage a.storage).values = .ok data := held
    refine ⟨_, reshape_eq_ok.mpr ⟨data, v, known, made, rfl⟩, elem, shaped, strided, rfl, held',
      fun shape' matching => ?_⟩
    rw [Tensor.reshape, Tensor.reshape, (count_of_values held').1, counted', held', known,
      Tensor.withStorage, elem, matching]
    simp

-- Two rows laid out column by column.
theorem Built.rearranged_columns : ∃ a r, Tensor.ofValues .int64 [2, 3]
    ([1, 2, 3, 4, 5, 6].map (.int ·)) = .ok a ∧ a.relayout [1, 2] = .ok r ∧
    r.values = .ok ([1, 2, 3, 4, 5, 6].map (.int ·)) ∧ ∃ r', a.reshape [3, 2] = .ok r' ∧
    r'.values = r.values := by
  obtain ⟨a, made, known⟩ := @exists_ofValues [2, 3] .int64 ([1, 2, 3, 4, 5, 6].map (.int ·)) rfl
    ⟨_, rfl⟩ (by decide)
  obtain ⟨elem, shape, -⟩ := ofValues_laidOut made
  have known : a.values = .ok ([1, 2, 3, 4, 5, 6].map (.int ·)) := by
    rw [known, map_map]
    exact congrArg _ (map_congr_left fun i _ => ElemType.recode_eq_cast rfl (.int i))
  obtain ⟨relaid, reshaped⟩ := Built.rearranged (.ofValues made) (by rw [elem]; rfl) known
  obtain ⟨r, made', -, -, -, -, kept⟩ :=
    relaid (by rw [shape]; exact ⟨_, rfl⟩) [1, 2]
      (by rw [elem, shape]; exact ⟨rfl, _, rfl, by decide⟩)
  obtain ⟨same, -⟩ := kept (by rw [shape]; decide)
  obtain ⟨r', made'', -, -, -, -, same', -⟩ := reshaped [3, 2] rfl ⟨_, rfl⟩
  exact ⟨a, r, made, made', same, r', made'', same'.trans same.symm⟩

-- Nothing is to be moved, but the extents can not be multiplied.
theorem rearranged_without_room : (∃ a, Tensor.zeros .int64 [0] = .ok a ∧ a.count = .ok 0 ∧
      a.reshape [2 ^ 33, 2 ^ 33, 0] = .error (.fault .overflow)) ∧
    ∃ a, Tensor.ofDescriptor ⟨[0, 2 ^ 33, 2 ^ 33], .int64, [1, 1, 1], .anywhere, true⟩ = .ok a ∧
    a.values = .ok [] ∧ a.relayout [1, 1, 1] = .error (.fault .overflow) := by
  refine ⟨⟨_, rfl, rfl, ?_⟩, _, rfl, rfl, rfl⟩
  have large : sizeProduct [2 ^ 33, 2 ^ 33, 0] = .error (.fault .overflow) := rfl
  rw [Tensor.reshape, large, Outcome.error_bind]

end Tensor

end TraceFlow
